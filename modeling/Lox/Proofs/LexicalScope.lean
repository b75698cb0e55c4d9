/-
**Lexical scope.** Resolution finds for every reference the declaration that it can see in the text.

* `Located.resolved` is a reference with the number of scopes out to the innermost one that declares
  its name before it.
* `resolve_lexical`: that is what resolution annotates the references of every text with, whatever
  the room for it; and there is a result unless the text is nested too deeply for the room, as that
  of `buriedThis` is.
-/

import Lox.Proofs.Buried
import Lox.Proofs.Resolution

namespace Lox

/-- A reference that leads to the scope where it belongs. -/
def Located.resolved (site : Located Unit) : Use × Reference Hops :=
  (site.use, ⟨site.reference.token, site.target⟩)

/-- How far a reference is from the scope where it belongs, if that is a local one. -/
def Located.distance? (site : Located Unit) : Option Distance :=
  site.target.map fun hops => ⟨site.use, site.reference.token, hops⟩

/-! ### Sites of a program -/

theorem Stmt.inside_nil {ρ : Type} (stmt : Stmt ρ) : stmt.inside [] = [] := by
  cases stmt <;> rfl

/-- At top level nothing is known about local scopes, so everything is timely. -/
theorem sitesIn_nil_timely {ρ : Type} (body : List (Stmt ρ)) (formed : eachIn Formed body)
    (ordered : eachIn Ordered body) : ∀ site ∈ sitesIn [] body, site.Timely := by
  induction body with
  | nil => exact List.forall_mem_nil _
  | cons stmt more ih =>
      rw [sitesIn, stmt.after_nil]
      refine List.forall_mem_append.mpr ⟨?_, ih formed.2 ordered.2⟩
      refine stmt.sites_timely formed.1 ordered.1 fun token _ layer member => ?_
      rw [stmt.inside_nil] at member
      exact absurd member List.not_mem_nil

/-- A timely site leads where its reference belongs. -/
theorem Site.Timely.target {site : Site Unit} (timely : site.Timely) :
    site.layers.findIdx? (·.knows site.reference.token.lexeme) = site.locate.target := by
  have same : ∀ layer ∈ site.layers, layer.knows site.reference.token.lexeme =
      layer.scope.declaresBefore site.reference.token.lexeme site.reference.token.offset :=
    fun layer member => Bool.eq_iff_iff.mpr ((timely layer member).knows _)
  unfold Located.target Site.locate
  rw [List.findIdx?_map]
  generalize site.layers = layers at same ⊢
  induction layers with
  | nil => rfl
  | cons layer more ih =>
      obtain ⟨here, others⟩ := List.forall_mem_cons.mp same
      simp only [List.findIdx?_cons, Function.comp_apply, here, ih others]

/-! ### Programs -/

theorem resolve_corresponds {quiet : Prop} {text : String} {room : Nat}
    {resolved : List (Stmt Hops)}
    (yields : (resolve (parse text).tree room).Yields quiet resolved) :
    ResolvesTo quiet [] (parse text).tree resolved := by
  have formed := parse_formed text
  refine resolveAll_spec _ formed .topLevel (List.forall_mem_nil _) ?_ yields
  intro stmt member name declared
  exact ⟨(eachIn_iff.mp formed stmt member).here.names name declared, nofun⟩

/-- The references of a resolved text lead where they belong. -/
theorem resolve_references {text : String} {room : Nat} {resolved : List (Stmt Hops)}
    (found : (resolve (parse text).tree room).value = some resolved) :
    treeReferences resolved = (locatedIn [] (parse text).tree).map Located.resolved := by
  have own := resolve_corresponds ⟨found, False.elim⟩
  have timely := sitesIn_nil_timely _ (parse_formed text) (parse_ordered text)
  calc treeReferences resolved
      = (sitesIn [] resolved).map Site.used := by rw [treeReferences_eq, sitesIn_used]
    _ = (sitesIn [] (parse text).tree).map (Site.used ∘ Site.resolve) := by
        rw [own.sites.same, List.map_map]
    _ = (sitesIn [] (parse text).tree).map (Located.resolved ∘ Site.locate) := by
        refine List.map_congr_left fun site member => ?_
        simp only [Function.comp_apply, Site.used, Site.resolve, Located.resolved,
          (timely site member).target]
        rfl
    _ = (locatedIn [] (parse text).tree).map Located.resolved := by
        rw [← List.map_map, sitesIn_locate]
        rfl

/-- The references of a text without complaints, as resolution met them. -/
theorem resolve_sites {text : String} {room : Nat} {resolved : List (Stmt Hops)}
    (yields : (resolve (parse text).tree room).Yields True resolved) :
    ∀ site ∈ sitesIn [] resolved, ∃ source ∈ sitesIn [] (parse text).tree, site = source.resolve ∧
      source.Permitted ∧ source.use.Suits source.reference.token.lexeme := by
  have own := resolve_corresponds yields
  intro site member
  rw [own.sites.same] at member
  obtain ⟨source, inside, rfl⟩ := List.mem_map.mp member
  refine ⟨source, inside, rfl, own.sites.permitted trivial source inside,
    parse_suits text source.used ?_⟩
  rw [treeReferences_eq, ← sitesIn_used []]
  exact List.mem_map_of_mem inside

/-- The references of a text without complaints lead somewhere. -/
theorem resolve_leads {text : String} {room : Nat} {resolved : List (Stmt Hops)}
    (yields : (resolve (parse text).tree room).Yields True resolved) :
    ∀ site ∈ sitesIn [] resolved, site.Leads := by
  intro site member
  obtain ⟨source, _, rfl, permitted, suits⟩ := resolve_sites yields site member
  exact permitted.leads suits

theorem resolve_distances {text : String} {room : Nat} {resolved : List (Stmt Hops)}
    (found : (resolve (parse text).tree room).value = some resolved) :
    distances resolved = (locatedIn [] (parse text).tree).filterMap Located.distance? := by
  rw [distances, resolve_references found, List.filterMap_map]
  rfl

/-- **Resolution is lexical scoping**, whatever the room for it. If there is a result, then every
reference in it is annotated with the number of scopes out to the innermost local scope that
declares its name before it, and with nothing if there is no such scope; so the table of distances
has an entry for exactly those references that have such a scope. Unless the report gets full, there
is a result exactly for the texts that are not nested too deeply for the room. -/
theorem resolve_lexical (report : Report) (room : Nat) (text : String) :
    (∀ resolved, (report.resolveTree (parse text).tree room).2 = .done resolved →
      treeReferences resolved = (locatedIn [] (parse text).tree).map Located.resolved ∧
      distances resolved = (locatedIn [] (parse text).tree).filterMap Located.distance?) ∧
    ((report.resolveTree (parse text).tree room).2 ≠ .full →
      ((∃ resolved, (report.resolveTree (parse text).tree room).2 = .done resolved) ↔
        treeDepth (parse text).tree ≤ room)) := by
  refine ⟨fun resolved done => ?_, fun open_ => ?_⟩
  · have found := report.resolveTree_done done
    exact ⟨resolve_references found, resolve_distances found⟩
  · rw [← resolve_ends, Verdict.Ends, Option.isSome_iff_exists]
    constructor
    · rintro ⟨resolved, done⟩
      exact ⟨resolved, report.resolveTree_done done⟩
    · rintro ⟨resolved, found⟩
      rw [Report.resolveTree_eq] at open_ ⊢
      have more : ¬ (report.fileAll ((resolve (parse text).tree room).complaints.map
          (Issue.ofViolation report.source))).2 = true :=
        fun full => open_ (if_pos full)
      exact ⟨resolved, by rw [if_neg more, found]; rfl⟩

/-! ### Nested too deeply -/

/-- A method that names its instance, negated a number of times. -/
def negatedThis (count : Nat) : List (Stmt Unit) :=
  [.class_ ⟨.name, "C", .nil, 0, 0⟩ none [.mk ⟨.name, "m", .nil, 0, 0⟩ []
    [.expression (negated (.this ⟨⟨.this_, "this", .nil, 0, 0⟩, ()⟩) count)]]]

theorem negatedThis_writable (count : Nat) : eachIn Writable (negatedThis count) := by
  have this : (Expr.this ⟨⟨.this_, "this", .nil, 0, 0⟩, ()⟩ : Expr Unit).Each Expr.Writable := rfl
  have value := negated_writable (by decide) this count
  have params : ∀ name ∈ ([] : List Token), name.kind = .name := List.forall_mem_nil _
  refine ⟨⟨⟨rfl, ?_⟩, ⟨⟨rfl, params, Nat.zero_le _⟩, ⟨trivial, value⟩, trivial⟩, trivial⟩, trivial⟩
  rintro _ ⟨⟩

/-- The method as a text, with that many exclamation marks. -/
def negatedThisText (count : Nat) : String :=
  String.ofList
    ("class C\x7bm()\x7b".toList ++ (List.replicate count '!' ++ "this;\x7d\x7d".toList))

/-- The segments in front of the exclamation marks. -/
def openedSegments : List Segment :=
  [⟨.token .class_, "class".toList⟩, ⟨.ignored, [' ']⟩, ⟨.token .name, ['C']⟩,
    ⟨.token .braceOpen, ['{']⟩, ⟨.token .name, ['m']⟩, ⟨.token .parenOpen, ['(']⟩,
    ⟨.token .parenClose, [')']⟩, ⟨.token .braceOpen, ['{']⟩]

theorem segments_method (rest : List Char) :
    segments ("class C\x7bm()\x7b".toList ++ rest) = openedSegments ++ segments rest := by
  have next {c : Char} {chars after : List Char} {segment : Segment}
      (cut : Segment.cut c chars = (segment, after)) :
      segments (c :: chars) = segment :: segments after := by
    rw [segments, cut]
  have last : Segment.cut '{' rest = (⟨.token .braceOpen, ['{']⟩, rest) := by
    cases rest <;> rfl
  exact (next rfl).trans <| congrArg _ <| (next rfl).trans <| congrArg _ <| (next rfl).trans <|
    congrArg _ <| (next rfl).trans <| congrArg _ <| (next rfl).trans <| congrArg _ <|
    (next rfl).trans <| congrArg _ <| (next rfl).trans <| congrArg _ <| next last

/-- The tokens in front of the exclamation marks. -/
def openedTokens : List Token :=
  [⟨.class_, "class", .nil, 1, 0⟩, ⟨.name, "C", .nil, 1, 6⟩, ⟨.braceOpen, "\x7b", .nil, 1, 7⟩,
    ⟨.name, "m", .nil, 1, 8⟩, ⟨.parenOpen, "(", .nil, 1, 9⟩, ⟨.parenClose, ")", .nil, 1, 10⟩,
    ⟨.braceOpen, "\x7b", .nil, 1, 11⟩]

theorem scan_method (more : List Segment) : Scan.ofSegments (openedSegments ++ more) 1 0 =
    openedTokens.map Scanned.token ++ Scan.ofSegments more 1 12 := by
  simp only [openedSegments, List.cons_append, List.nil_append, Scan.ofSegments]
  rfl

theorem parse_negatedThisText (count : Nat) :
    (parse (negatedThisText count)).tree.map Stmt.unplaced =
      (negatedThis count).map Stmt.unplaced := by
  have behind : segments "this;\x7d\x7d".toList =
      [⟨.token .this_, "this".toList⟩, ⟨.token .semicolon, [';']⟩, ⟨.token .braceClose, ['}']⟩,
        ⟨.token .braceClose, ['}']⟩] := by
    decide +kernel
  have cut : segments (negatedThisText count).toList = openedSegments ++
      (List.replicate count ⟨.token .bang, ['!']⟩ ++ segments "this;\x7d\x7d".toList) := by
    have chars : (negatedThisText count).toList =
        "class C\x7bm()\x7b".toList ++ (List.replicate count '!' ++ "this;\x7d\x7d".toList) :=
      String.toList_ofList
    rw [chars, segments_method, segments_bangs (by decide)]
  have shape : programWritten (negatedThis count) = [.fixed .class_,
      .kept ⟨.name, "C", .nil, 0, 0⟩, .fixed .braceOpen, .kept ⟨.name, "m", .nil, 0, 0⟩,
      .fixed .parenOpen, .fixed .parenClose, .fixed .braceOpen] ++
        ((negated (.this ⟨⟨.this_, "this", .nil, 0, 0⟩, ()⟩) count).written ++
          [.fixed .semicolon, .fixed .braceClose, .fixed .braceClose, .fixed .eof]) := by
    simp [programWritten, negatedThis, bodyWritten, Stmt.written, superclassWritten,
      methodsWritten, Function.written, paramsWritten]
  let place := 12 + count
  let back : List Token :=
    [⟨.this_, "this", .nil, 1, place⟩, ⟨.semicolon, ";", .nil, 1, place + 4⟩,
      ⟨.braceClose, "\x7d", .nil, 1, place + 5⟩, ⟨.braceClose, "\x7d", .nil, 1, place + 6⟩,
      Scan.closing 1 (place + 7)]
  have ends : Scan.ofSegments (segments "this;\x7d\x7d".toList) 1 (12 + count) =
      back.map Scanned.token := by
    simp only [behind, Scan.ofSegments]
    rfl
  exact parse_buried cut scan_method ends (negatedThis_writable count) shape
    (.cons rfl (.cons rfl (.cons rfl (.cons rfl (.cons rfl (.cons rfl (.cons rfl .nil)))))))
    (.cons rfl (.cons rfl (.cons rfl (.cons rfl (.cons rfl .nil)))))

/-- The tree of the text. -/
theorem parse_negatedThisText_shape (count : Nat) :
    ∃ name method value keyword, (parse (negatedThisText count)).tree =
        [.class_ name none [.mk method [] [.expression value]]] ∧
      value.references = [(.this, keyword)] ∧ keyword.token.lexeme = thisName ∧
      value.depth = 2 + 2 * count := by
  obtain ⟨first, more, found, one, rest⟩ := List.map_eq_cons_iff.mp (parse_negatedThisText count)
  obtain rfl := List.map_eq_nil_iff.mp rest
  cases first with
  | class_ name superclass methods =>
      obtain ⟨_, alone, inside⟩ := Stmt.class_.inj one
      rw [methodsUnplaced_eq] at inside
      obtain ⟨⟨method, params, body⟩, others, rfl, same, nothing⟩ := List.map_eq_cons_iff.mp inside
      obtain rfl := List.map_eq_nil_iff.mp nothing
      obtain ⟨_, none, within⟩ := Function.mk.inj same
      rw [bodyUnplaced_eq] at within
      obtain ⟨stmt, others, rfl, like, nothing⟩ := List.map_eq_cons_iff.mp within
      obtain rfl := List.map_eq_nil_iff.mp nothing
      obtain rfl := List.map_eq_nil_iff.mp none
      obtain rfl := Option.map_eq_none_iff.mp alone
      cases stmt with
      | expression value =>
          obtain ⟨own, like, references, depth⟩ := Expr.like_negated (Stmt.expression.inj like)
          cases own with
          | this keyword =>
              have same := congrArg (·.token.lexeme) (Expr.this.inj like)
              exact ⟨name, method, value, keyword, found, references, same, depth⟩
          | _ => cases like
      | _ => cases like
  | _ => cases one

/-- A method that names its instance under negations. -/
def buriedThis : String :=
  negatedThisText 30000

/-- The instance is two scopes out, but the text is nested too deeply to be resolved. -/
theorem buriedThis_untabled :
    (∃ token, (locatedIn [] (parse buriedThis).tree).filterMap Located.distance? =
      [⟨.this, token, 1⟩]) ∧
    ∀ (report : Report) (resolved : List (Stmt Hops)),
      (report.resolveTree (parse buriedThis).tree).2 ≠ .done resolved := by
  obtain ⟨name, method, value, keyword, tree, references, lexeme, depth⟩ :=
    parse_negatedThisText_shape 30000
  refine ⟨⟨keyword.token, ?_⟩, fun report resolved done => ?_⟩
  · rw [buriedThis, tree]
    simp [locatedIn, Stmt.located, locate, locatedInMethods, Function.located, references,
      Located.distance?, Located.target, LocalScope.forMethods, LocalScope.ofBody,
      LocalScope.only, LocalScope.declaresBefore, lexeme, Stmt.declaration?, List.findIdx?_cons]
  · have found := report.resolveTree_done done
    have ends : (resolve (parse buriedThis).tree).Ends :=
      Option.isSome_iff_exists.mpr ⟨resolved, found⟩
    rw [resolve_ends, buriedThis, tree] at ends
    simp only [treeDepth, Stmt.depth, methodsDepth, Function.depth, depth, maxNesting] at ends
    omega

end Lox
