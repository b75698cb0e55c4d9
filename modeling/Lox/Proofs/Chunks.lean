/-
**Chunks.** A program may be cut between its statements, and fed to a session piece by piece.

* A `Ledger` is a session with its table of distances. `Ledger.feed` resolves statements on their
  own, merges what was found out into the table, and runs them while every reference, in them and in
  the functions made before, goes by the table. `Ledger.feedAll` feeds chunks until one goes wrong.
* Outside all scopes, a statement leaves nothing behind for the resolution of the next one, so the
  chunks of an accepted program are accepted one by one (`resolve_chunks`).
* Whatever is merged into the table later, the functions that earlier chunks have made lead where
  they did (`relink_runProgram`). So feeding the chunks does what running the program does
  (`Ledger.feedAll_spec`).
-/

import Lox.Proofs.Apart
import Lox.Proofs.Tables
import Mathlib.Data.List.Forall2

namespace Lox

open Verdict (yields_bind yields_descend yields_objectIf yields_pure)

/-! ### Feeding chunks -/

/-- The entries that resolving statements on their own gives. -/
def scratch (room : Nat) (chunk : List (Stmt Unit)) : Table :=
  ((resolve chunk room).value.map distances).getD []

/-- The entries of chunks, merged one after the other. -/
def Table.gather (room : Nat) (chunks : List (List (Stmt Unit))) : Table :=
  chunks.foldl (fun table chunk => table.merge (scratch room chunk)) []

/-- A session with the table that the references of its programs go by. -/
structure Ledger where
  session : Session
  table : Table

namespace Ledger

/-- What a session came to, with the same table. -/
def keep (ledger : Ledger) (result : Session × Option Outcome) : Ledger × Option Outcome :=
  ({ ledger with session := result.1 }, result.2)

/-- Merges what was found out about a chunk into the table, and runs the chunk by the table. The
table stays as it is if chunks are only checked. -/
def proceed (ledger : Ledger) (report : Report) (tree : List (Stmt Hops)) :
    Ledger × Option Outcome :=
  let session := ledger.session
  if session.checkOnly then ledger.keep (session.proceed report tree)
  else
    let table := ledger.table.merge (distances tree)
    let relinked := { session with machine := session.machine.relink table }
    { ledger with table }.keep (relinked.proceed report (relinkAll table tree))

/-- Resolves a chunk on its own, and runs it if there are no issues. There is no outcome if the
report got full. -/
def feed (ledger : Ledger) (chunk : List (Stmt Unit)) : Ledger × Option Outcome :=
  let session := ledger.session
  if session.report.sick then ledger.keep (session.reject session.report)
  else
    let report := session.report.info ["Parsed " ++ toString chunk.length ++ " statement(s)."]
    match report.resolveTree chunk session.limits.nesting with
    | (report, .full) => ledger.keep ({ session with report }, none)
    | (report, .tooDeep) =>
      match report.fileAll [.nesting] with
      | (report, true) => ledger.keep ({ session with report }, none)
      | (report, false) => ledger.keep (session.reject report)
    | (report, .done tree) =>
      if report.sick then ledger.keep (session.reject report) else ledger.proceed report tree

/-- Feeds chunks one after the other, up to the first one that does not go well. -/
def feedAll (ledger : Ledger) : List (List (Stmt Unit)) → Ledger × Option Outcome
  | [] => (ledger, some .ok)
  | chunk :: more =>
    match ledger.feed chunk with
    | (next, some .ok) => next.feedAll more
    | ended => ended

end Ledger

/-! ### Resolving chunks -/

/-- Outside all scopes nothing is marked. -/
theorem Enclosing.mark_outside {around : Enclosing} (outside : around.scopes = []) (name : String)
    (complete : Bool) : around.mark name complete = around := by
  unfold mark
  rw [outside]

theorem introduce_outside {quiet : Prop} {around after : Enclosing}
    (outside : around.scopes = []) {name : Token}
    (yields : (introduce around name : Verdict _).Yields quiet after) : after = around := by
  simp only [introduce, declare, yields_bind, yields_objectIf, yields_pure, exists_const] at yields
  obtain ⟨_, ⟨_, rfl⟩, rfl⟩ := yields
  rw [Enclosing.mark_outside outside, Enclosing.mark_outside outside]

/-- Outside all scopes a statement leaves nothing behind for the next one. -/
theorem Stmt.resolve_outside {quiet : Prop} : {room : Nat} → {around after : Enclosing} →
    around.scopes = [] → (stmt : Stmt Unit) → {resolved : Stmt Hops} →
    (stmt.resolve around room : Verdict _).Yields quiet (resolved, after) → after = around
  | _, _, _, _, .block _, _, yields | _, _, _, _, .expression _, _, yields
  | _, _, _, _, .print _ _, _, yields => by
    simp only [Stmt.resolve, yields_descend, yields_bind, yields_pure, Prod.mk.injEq] at yields
    obtain ⟨_, _, _, _, rfl⟩ := yields
    rfl
  | _, _, _, outside, .function _, _, yields => by
    simp only [Stmt.resolve, yields_descend, yields_bind, yields_pure, Prod.mk.injEq] at yields
    obtain ⟨_, _, first, _, _, _, rfl⟩ := yields
    exact introduce_outside outside first
  | _, _, _, outside, .class_ _ _ _, _, yields => by
    simp only [Stmt.resolve, yields_descend, yields_bind, yields_pure, Prod.mk.injEq] at yields
    obtain ⟨_, _, first, _, _, _, _, _, rfl⟩ := yields
    exact introduce_outside outside first
  | _, _, _, outside, .ifThen _ branch, _, yields
  | _, _, _, outside, .while_ _ branch, _, yields => by
    simp only [Stmt.resolve, yields_descend, yields_bind, yields_pure, Prod.mk.injEq] at yields
    obtain ⟨_, _, _, ⟨_, _⟩, inner, _, rfl⟩ := yields
    exact branch.resolve_outside outside inner
  | _, _, _, outside, .ifElse _ yes no, _, yields => by
    simp only [Stmt.resolve, yields_descend, yields_bind, yields_pure, Prod.mk.injEq] at yields
    obtain ⟨_, _, _, ⟨_, _⟩, first, ⟨_, _⟩, second, _, rfl⟩ := yields
    obtain rfl := yes.resolve_outside outside first
    exact no.resolve_outside outside second
  | _, _, _, _, .return_ _ _, _, yields => by
    simp only [Stmt.resolve, yields_descend, yields_bind, yields_pure, Prod.mk.injEq] at yields
    obtain ⟨_, _, _, _, _, _, _, _, rfl⟩ := yields
    rfl
  | _, _, _, outside, .var name _, _, yields => by
    simp only [Stmt.resolve, declare, yields_descend, yields_bind, yields_objectIf, yields_pure,
      Prod.mk.injEq, exists_const] at yields
    obtain ⟨_, _, ⟨_, rfl⟩, _, _, _, rfl⟩ := yields
    rw [Enclosing.mark_outside outside, Enclosing.mark_outside outside]

/-- At top level, statements that are accepted one after the other are accepted on their own. -/
theorem resolveAll_split {quiet : Prop} {room : Nat} {around : Enclosing}
    (outside : around.scopes = []) {first second : List (Stmt Unit)} {resolved : List (Stmt Hops)}
    (yields : (resolveAll around room (first ++ second) : Verdict _).Yields quiet resolved) :
    ∃ front back, (resolveAll around room first : Verdict _).Yields quiet front ∧
      (resolveAll around room second : Verdict _).Yields quiet back ∧
      resolved = front ++ back := by
  induction first generalizing resolved with
  | nil => exact ⟨[], resolved, yields_pure.mpr rfl, yields, rfl⟩
  | cons stmt more ih =>
      simp only [List.cons_append, resolveAll, yields_bind, yields_pure] at yields
      obtain ⟨⟨stmt', after⟩, here, others, rest, rfl⟩ := yields
      obtain rfl := stmt.resolve_outside outside here
      obtain ⟨front, back, accepted, accepted', rfl⟩ := ih rest
      refine ⟨stmt' :: front, back, ?_, accepted', rfl⟩
      simp only [resolveAll, yields_bind, yields_pure]
      exact ⟨(stmt', after), here, front, accepted, rfl⟩

variable {room : Nat}

/-- What chunks are resolved into when each is resolved on its own. -/
def ResolveEach (room : Nat) : List (List (Stmt Unit)) → List (List (Stmt Hops)) → Prop :=
  List.Forall₂ fun chunk tree => (resolve chunk room).Yields True tree

theorem ResolveEach.accepted {chunks : List (List (Stmt Unit))} {trees : List (List (Stmt Hops))}
    (each : ResolveEach room chunks trees) :
    ∀ chunk ∈ chunks,
      (resolve chunk room).complaints = [] ∧ (resolve chunk room).value.isSome := by
  induction each with
  | nil => exact List.forall_mem_nil _
  | cons here _ ih =>
      exact List.forall_mem_cons.mpr
        ⟨⟨here.2 trivial, Option.isSome_iff_exists.mpr ⟨_, here.1⟩⟩, ih⟩

/-- **The chunks of an accepted program are accepted**, and make up the resolved program. -/
theorem resolve_chunks {chunks : List (List (Stmt Unit))} {resolved : List (Stmt Hops)}
    (yields : (resolve chunks.flatten room).Yields True resolved) :
    ∃ trees, ResolveEach room chunks trees ∧ resolved = trees.flatten := by
  induction chunks generalizing resolved with
  | nil => exact ⟨[], .nil, (yields_pure.mp yields).symm⟩
  | cons chunk more ih =>
      obtain ⟨front, back, here, rest, rfl⟩ := resolveAll_split rfl yields
      obtain ⟨trees, each, rfl⟩ := ih rest
      exact ⟨front :: trees, .cons here each, rfl⟩

/-! ### Machines on which chunks have run -/

theorem sitesIn_nil_append {ρ : Type} (first second : List (Stmt ρ)) :
    sitesIn [] (first ++ second) = sitesIn [] first ++ sitesIn [] second := by
  induction first with
  | nil => rfl
  | cons stmt more ih =>
      rw [List.cons_append, sitesIn, sitesIn, stmt.after_nil, ih, List.append_assoc]

/-- The first statements of a program can run if all can. -/
theorem Ready.front {ok : Site Hops → Prop} {first second : List (Stmt Hops)}
    (ready : Ready ok [] (first ++ second)) : Ready ok [] first := by
  refine .topLevel (fun site member => ready.sites site ?_) (eachIn_iff.mpr fun stmt member => ?_)
  · rw [sitesIn_nil_append]
    exact List.mem_append_left _ member
  · exact eachIn_iff.mp ready.accepted stmt (List.mem_append_left _ member)

/-- A program that can run, and whose references are told apart by their tokens. -/
structure Linked (tree : List (Stmt Hops)) : Prop where
  ready : Ready Site.Leads [] tree
  apart : (mentioned (treeReferences tree)).Nodup

theorem Passes.linked {text : String} {tree : List (Stmt Hops)}
    (passes : Passes text tree room) : Linked tree where
  ready := passes.ready
  apart := resolve_mentioned passes.yields ▸ parse_nodup text

namespace Linked

variable {done tree more : List (Stmt Hops)}

theorem front (linked : Linked (done ++ more)) : Linked done := by
  have apart := linked.apart
  rw [treeReferences_append, mentioned_append] at apart
  exact ⟨linked.ready.front, (List.nodup_append.mp apart).1⟩

theorem merge (linked : Linked (done ++ tree)) :
    Table.merge (distances done) (distances tree) = distances (done ++ tree) := by
  have apart := linked.apart
  rw [treeReferences_append] at apart
  rw [distances_eq (done ++ tree), treeReferences_append]
  exact Table.merge_of_disjoint apart

/-- The last statements of a program go by its table. -/
theorem relinkAll (linked : Linked (done ++ tree)) :
    relinkAll (distances (done ++ tree)) tree = tree := by
  refine relinkAll_eq tree fun used member => Table.links_of_nodup linked.apart used ?_
  rw [treeReferences_append]
  exact List.mem_append_right _ member

/-- **Entries that are merged later change no function.** However the first part of a program has
ended, by the table of the program the functions that it has made lead where they did. -/
theorem relink_runProgram (linked : Linked (done ++ more)) (time : Clock) (limits : Limits) :
    (runProgram done (.standard time) limits).1.relink (distances (done ++ more)) =
      (runProgram done (.standard time) limits).1 := by
  let ok (site : Site Hops) : Prop :=
    site.Leads ∧ Table.Links (distances (done ++ more)) site.used
  have whole : Ready ok [] (done ++ more) := by
    refine .topLevel (fun site member => ⟨linked.ready.sites site member, ?_⟩)
      linked.ready.accepted
    refine Table.links_of_nodup linked.apart site.used ?_
    rw [treeReferences_eq, ← sitesIn_used []]
    exact List.mem_map_of_mem member
  have meets : (World.standard ok time True).Meets
      (runStatements .direct limits.turns limits.room done)
      (runStatements .direct limits.turns limits.room done) fun _ _ => True :=
    runStatements_meets (Lookup.direct_follows fun _ => And.left) _ _ whole.front
  obtain ⟨later, same, _⟩ := RunLogic.Ends.exists_later meets.ends
  rw [runProgram_machine]
  exact same ▸ later.relink_eq fun _ => And.right

/-- The entries of chunks make up the table of the program. -/
theorem foldl_merge {chunks : List (List (Stmt Unit))} {trees : List (List (Stmt Hops))}
    (each : ResolveEach room chunks trees) (linked : Linked (done ++ trees.flatten)) :
    chunks.foldl (fun (table : Table) chunk => table.merge (scratch room chunk)) (distances done) =
      distances (done ++ trees.flatten) := by
  induction each generalizing done with
  | nil => rw [List.foldl_nil, List.flatten_nil, List.append_nil]
  | @cons chunk tree chunks trees here each ih =>
      rw [List.flatten_cons, ← List.append_assoc] at linked
      have entries : scratch room chunk = distances tree := by
        rw [scratch, here.1]
        rfl
      rw [List.foldl_cons, entries, linked.front.merge, ih linked, List.flatten_cons,
        List.append_assoc]

end Linked

/-! ### Running chunks -/

/-- A program runs as its parts run one after the other. -/
theorem runProgram_append (first second : List (Stmt Hops)) (machine : Machine) (limits : Limits) :
    runProgram (first ++ second) machine limits =
      match runProgram first machine limits with
      | (next, none) => runProgram second next limits
      | ended => ended := by
  induction first generalizing machine with
  | nil => rfl
  | cons stmt more ih =>
      unfold runProgram at ih ⊢
      simp only [List.cons_append, runStatements, Bind.bind, EStateM.bind]
      cases Stmt.exec .direct limits.turns limits.room Machine.globals stmt machine with
      | ok completion next => exact ih next
      | error failure next => rfl

/-- The same report, but for remarks. There are none if the least is to be said. -/
def Report.Remarks (report next : Report) : Prop :=
  ∃ said, next = { report with written := report.written ++ said } ∧
    (report.verbosity = 0 → said = "")

namespace Report

theorem Remarks.refl (report : Report) : report.Remarks report :=
  ⟨"", by rw [String.append_empty], fun _ => rfl⟩

theorem Remarks.trans {first second third : Report} (before : first.Remarks second)
    (after : second.Remarks third) : first.Remarks third := by
  obtain ⟨said, rfl, least⟩ := before
  obtain ⟨more, rfl, least'⟩ := after
  refine ⟨said ++ more, by rw [String.append_assoc], fun zero => ?_⟩
  rw [least zero, least' zero, String.append_empty]

theorem remarks_info (report : Report) (words : List String) :
    report.Remarks (report.info words) := by
  unfold info
  by_cases zero : report.verbosity = 0
  · rw [if_pos zero]
    exact .refl report
  · rw [if_neg zero]
    exact ⟨" ".intercalate words ++ "\n", by rw [say, String.append_assoc],
      fun least => absurd least zero⟩

theorem Remarks.issues {report next : Report} (remarks : report.Remarks next) :
    next.issues = report.issues := by
  obtain ⟨said, rfl, _⟩ := remarks
  rfl

theorem not_sick {report : Report} (well : report.issues = #[]) : ¬ report.sick = true := by
  simp [sick, ok, well]

/-- Nothing is filed about a text without complaints. -/
theorem parseText_clean {text : String} (clean : (parse text).complaints = []) (report : Report) :
    report.parseText text = (report.setSource text, some (parse text).tree) := by
  rw [parseText_conclude, clean]
  rfl

theorem resolveTree_clean {chunk : List (Stmt Unit)} {tree : List (Stmt Hops)}
    (yields : (resolve chunk room).Yields True tree) (report : Report) :
    report.resolveTree chunk room = (report, .done tree) := by
  rw [resolveTree_eq, yields.1, yields.2 trivial]
  rfl

end Report

namespace Session

theorem proceed_eq {session : Session} (runs : session.checkOnly = false) (report : Report)
    (tree : List (Stmt Hops)) :
    ∃ next, report.Remarks next ∧ session.proceed report tree = session.runTree next tree := by
  refine ⟨report.info ["Resolved " ++ toString (distances tree).length ++ " local reference(s)."],
    report.remarks_info _, ?_⟩
  unfold proceed
  rw [runs]
  rfl

/-- A text that passes is run, and there are only remarks before. -/
theorem run_eq (session : Session) (runs : session.checkOnly = false)
    (well : session.report.issues = #[]) {text : String} {tree : List (Stmt Hops)}
    (passes : Passes text tree session.limits.nesting) :
    ∃ next, (session.report.setSource text).Remarks next ∧
      session.run text = session.runTree next tree := by
  have clean : (session.report.setSource text).issues = #[] := well
  have noted := (session.report.setSource text).remarks_info
    ["Parsed " ++ toString (parse text).tree.length ++ " statement(s)."]
  obtain ⟨next, remarks, same⟩ := proceed_eq runs _ tree
  refine ⟨next, noted.trans remarks, ?_⟩
  unfold run
  rw [Report.parseText_clean passes.parsed]
  simp only
  rw [if_neg (Report.not_sick clean), Report.resolveTree_clean passes.yields]
  simp only
  rw [if_neg (Report.not_sick (noted.issues.trans clean)), same]

end Session

namespace Ledger

/-- A ledger to which statements were fed, on a new machine, and all has gone well. -/
structure Stands (ledger : Ledger) (time : Clock) (limits : Limits) (done : List (Stmt Hops)) :
    Prop where
  runs : ledger.session.checkOnly = false
  bounds : ledger.session.limits = limits
  well : ledger.session.report.issues = #[]
  table : ledger.table = distances done
  resolved : ledger.session.resolved = (distances done).length
  machine : runProgram done (.standard time) limits = (ledger.session.machine, none)

/-- What comes of feeding statements after a report: just the result of running them. The table is
that of the whole program if all has gone well. -/
structure Fares (report : Report) (whole : List (Stmt Hops)) (result : Machine × Option Failure)
    (fed : Ledger × Option Outcome) : Prop where
  machine : fed.1.session.machine = result.1
  outcome : fed.2 = some (.ofFailure result.2)
  report : ∃ next, report.Remarks next ∧ fed.1.session.report = Session.explain next result.2
  table : fed.2 = some .ok → fed.1.table = distances whole
  resolved : fed.2 = some .ok → fed.1.session.resolved = (distances whole).length

variable {ledger : Ledger} {time : Clock} {limits : Limits} {done tree : List (Stmt Hops)}

/-- **A chunk is run as if there were no table**: what goes by the table leads where it did. -/
theorem proceed_eq (stands : ledger.Stands time limits done) (linked : Linked (done ++ tree))
    (report : Report) :
    ledger.proceed report tree =
      { ledger with table := distances (done ++ tree) }.keep
        (ledger.session.proceed report tree) := by
  have machine : ledger.session.machine.relink (distances (done ++ tree)) =
      ledger.session.machine := by
    have same := linked.relink_runProgram time limits
    rwa [stands.machine] at same
  unfold proceed
  simp only
  rw [if_neg (ne_true_of_eq_false stands.runs), stands.table, linked.merge, machine,
    linked.relinkAll]

/-- A chunk that is accepted is run, and there are only remarks before. -/
theorem feed_eq (stands : ledger.Stands time limits done) (linked : Linked (done ++ tree))
    {chunk : List (Stmt Unit)} (yields : (resolve chunk limits.nesting).Yields True tree) :
    ∃ next, ledger.session.report.Remarks next ∧ ledger.feed chunk =
      { ledger with table := distances (done ++ tree) }.keep
        (ledger.session.runTree next tree) := by
  have noted := ledger.session.report.remarks_info
    ["Parsed " ++ toString chunk.length ++ " statement(s)."]
  obtain ⟨next, remarks, same⟩ := Session.proceed_eq stands.runs _ tree
  refine ⟨next, noted.trans remarks, ?_⟩
  unfold feed
  simp only
  rw [if_neg (Report.not_sick stands.well), stands.bounds, Report.resolveTree_clean yields]
  simp only
  rw [if_neg (Report.not_sick (noted.issues.trans stands.well)), proceed_eq stands linked, same]

/-- **Feeding chunks** comes to the same as running their statements. -/
theorem feedAll_spec {chunks : List (List (Stmt Unit))} {trees : List (List (Stmt Hops))}
    (each : ResolveEach limits.nesting chunks trees) (stands : ledger.Stands time limits done)
    (linked : Linked (done ++ trees.flatten)) :
    Fares ledger.session.report (done ++ trees.flatten)
      (runProgram trees.flatten ledger.session.machine limits) (ledger.feedAll chunks) := by
  induction each generalizing ledger done with
  | nil =>
      rw [List.flatten_nil, List.append_nil]
      exact ⟨rfl, rfl, ⟨_, .refl _, rfl⟩, fun _ => stands.table, fun _ => stands.resolved⟩
  | @cons chunk tree chunks trees here each ih =>
      rw [List.flatten_cons, ← List.append_assoc] at linked
      obtain ⟨next, remarks, fed⟩ := feed_eq stands linked.front here
      have before : runProgram (done ++ tree) (.standard time) limits =
          runProgram tree ledger.session.machine limits := by
        rw [runProgram_append, stands.machine]
      obtain rfl := stands.bounds
      rw [feedAll, fed, Session.runTree, List.flatten_cons, ← List.append_assoc,
        runProgram_append]
      rcases result : runProgram tree ledger.session.machine ledger.session.limits with
        ⟨machine, failure⟩
      rw [result] at before
      cases failure with
      | some failure =>
          cases failure with
          | _ => exact ⟨rfl, rfl, ⟨next, remarks, rfl⟩, nofun, nofun⟩
      | none =>
          have count : ledger.session.resolved + (distances tree).length =
              (distances (done ++ tree)).length := by
            rw [stands.resolved, distances_append, List.length_append]
          let session := { ledger.session with
            report := next, machine, resolved := ledger.session.resolved + (distances tree).length }
          have after : Stands ⟨session, distances (done ++ tree)⟩ time _ (done ++ tree) :=
            ⟨stands.runs, rfl, remarks.issues.trans stands.well, rfl, count, before⟩
          have fares := ih after linked
          obtain ⟨last, more, told⟩ := fares.report
          exact ⟨fares.machine, fares.outcome, ⟨last, remarks.trans more, told⟩, fares.table,
            fares.resolved⟩

/-- A ledger to which nothing was fed yet. -/
def start (report : Report) (time : Clock) (limits : Limits := {}) : Ledger :=
  ⟨.start report time false limits, []⟩

theorem start_stands {report : Report} (well : report.issues = #[]) (time : Clock)
    (limits : Limits) : (start report time limits).Stands time limits [] :=
  ⟨rfl, rfl, well, rfl, rfl, rfl⟩

/-- The functions of chunks that were fed stay as they are when the entries of more chunks are
merged. -/
theorem relink_feedAll {front more : List (List (Stmt Unit))} {resolved : List (Stmt Hops)}
    (yields : (resolve (front ++ more).flatten limits.nesting).Yields True resolved)
    (linked : Linked resolved) {report : Report} (well : report.issues = #[]) (time : Clock) :
    ((start report time limits).feedAll front).1.session.machine.relink
        (Table.gather limits.nesting (front ++ more)) =
      ((start report time limits).feedAll front).1.session.machine := by
  rw [List.flatten_append] at yields
  obtain ⟨_, _, first, second, rfl⟩ := resolveAll_split rfl yields
  obtain ⟨trees, each, rfl⟩ := resolve_chunks first
  obtain ⟨others, each', rfl⟩ := resolve_chunks second
  have fares := feedAll_spec each (start_stands well time limits) linked.front
  have table : Table.gather limits.nesting (front ++ more) =
      distances (trees.flatten ++ others.flatten) := by
    have both : ResolveEach limits.nesting (front ++ more) (trees ++ others) :=
      List.rel_append each each'
    rw [← List.flatten_append] at linked ⊢
    exact Linked.foldl_merge both (show Linked ([] ++ _) from linked)
  rw [fares.machine, table]
  exact linked.relink_runProgram time limits

end Ledger

/-- **Chunks come to the same as the whole.** Let a text pass without an issue, and let its
statements be cut into chunks in any way. Each chunk is accepted on its own. Feeding the chunks to a
new session, up to the first one that does not go well, leaves the same machine behind as running
the text (what was printed and the globals are parts of it), with the same outcome, and tells the
same failure, if there is one, after remarks, within whatever limits. If all goes well, the table is
that of the whole text. And whatever further chunks add to the table, the functions made so far lead
where they did. -/
theorem feedAll_eq_run {text : String} {tree : List (Stmt Hops)} {limits : Limits}
    (passes : Passes text tree limits.nesting) {report : Report} (well : report.issues = #[])
    (time : Clock) {chunks : List (List (Stmt Unit))} (cut : chunks.flatten = (parse text).tree) :
    let whole := (Session.start report time false limits).run text
    let fed := (Ledger.start report time limits).feedAll chunks
    (∀ chunk ∈ chunks, (resolve chunk limits.nesting).complaints = [] ∧
        (resolve chunk limits.nesting).value.isSome) ∧
      fed.1.session.machine = whole.1.machine ∧
      fed.2 = whole.2 ∧
      (∃ failure said said', report.Remarks said ∧ (report.setSource text).Remarks said' ∧
        fed.1.session.report = Session.explain said failure ∧
        whole.1.report = Session.explain said' failure) ∧
      (fed.2 = some .ok → fed.1.table = distances tree ∧
        fed.1.session.resolved = whole.1.resolved) ∧
      ∀ front more back, chunks = front ++ more ++ back →
        let machine := ((Ledger.start report time limits).feedAll front).1.session.machine
        machine.relink (Table.gather limits.nesting (front ++ more)) = machine := by
  intro whole fed
  have yields := passes.yields
  rw [← cut] at yields
  obtain ⟨trees, each, rfl⟩ := resolve_chunks yields
  have fares := Ledger.feedAll_spec each (Ledger.start_stands well time limits) passes.linked
  obtain ⟨said', remarks', ran⟩ := (Session.start report time false limits).run_eq rfl well passes
  have same : whole = _ := ran
  obtain ⟨said, remarks, told⟩ := fares.report
  refine ⟨?_, ?_, ?_, ⟨_, said, said', remarks, remarks', told, ?_⟩, ?_, ?_⟩
  · exact each.accepted
  · rw [same]
    exact fares.machine
  · rw [same]
    exact fares.outcome
  · rw [same]
    rfl
  · rw [same]
    exact fun good => ⟨fares.table good, (fares.resolved good).trans (Nat.zero_add _).symm⟩
  · rintro front more back rfl machine
    rw [List.flatten_append] at yields
    obtain ⟨first, last, accepted, _, parts⟩ := resolveAll_split rfl yields
    have linked := passes.linked
    rw [parts] at linked
    exact Ledger.relink_feedAll accepted linked.front well time

/-- A text whose first statement makes the function that its last statement calls. -/
def tallyText : String :=
  "fun make() { var i = 0; fun count() { i = i + 1; return i; } return count; }
  var next = make();
  { var first = next(); print first + next(); }"

/-- The statements of the text, the last one in a chunk of its own. -/
def tallyChunks : List (List (Stmt Unit)) :=
  [(parse tallyText).tree.take 2, (parse tallyText).tree.drop 2]

theorem feedAll_eq_run_tally :
    ∃ tree, Passes tallyText tree ∧ tallyChunks.flatten = (parse tallyText).tree ∧
      ((Ledger.start {} .zero).feedAll tallyChunks).2 = some .ok ∧
      ((Ledger.start {} .zero).feedAll tallyChunks).1.session.machine.printed = #["3"] ∧
      ((Ledger.start {} .zero).feedAll tallyChunks).1.table = distances tree := by
  obtain ⟨tree, passes⟩ : ∃ tree, Passes tallyText tree ({} : Limits).nesting :=
    exists_passes (by decide +kernel)
  have cut : tallyChunks.flatten = (parse tallyText).tree := by
    simp [tallyChunks]
  have well : ({} : Report).issues = #[] := rfl
  obtain ⟨_, machine, outcome, _, table, _⟩ := feedAll_eq_run passes well .zero cut
  have good := outcome.trans (show _ = some Outcome.ok by decide +kernel)
  refine ⟨tree, passes, cut, good, ?_, (table good).1⟩
  rw [machine]
  decide +kernel

end Lox
