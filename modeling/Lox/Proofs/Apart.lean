/-
**Apart.** No token is used in two places of a tree.

* `parse_offsets_nodup`: the tokens that a tree holds stand at different offsets of the text, errors
  or not.
* `nodes` are the places of a tree that refer to something: variables that are read or assigned to,
  and the uses of `this` and `super`. A place is told apart from the others by where it stands among
  them, whatever its token is.
* A `Register` is filled entry by entry, and a later entry for a key takes the place of an earlier
  one. `Register.enterAll_eq`: if the keys are different, all that is entered stays.
* `OneTable`: it makes no difference whether distances are kept by place or by offset.
-/

import Lox.Proofs.Filing
import Lox.Proofs.LexicalScope
import Lox.Proofs.Mentions

namespace Lox

/-! ### Offsets -/

/-- **The tokens of a tree stand at different offsets.** -/
theorem parse_offsets_nodup (text : String) :
    ((tokensIn (parse text).tree).map Token.offset).Nodup := by
  have apart : ((tokensOf (scan text)).map Token.offset).Nodup :=
    List.pairwise_map.mpr ((scan_increasing text).imp Nat.ne_of_lt)
  obtain ⟨tokens, permuted, inside⟩ := parse_tokens_subperm text
  exact (permuted.map Token.offset).nodup_iff.mp (apart.sublist (inside.map Token.offset))

/-- So do the tokens of its references. -/
theorem parse_mentioned_offsets_nodup (text : String) :
    ((mentioned (treeReferences (parse text).tree)).map Token.offset).Nodup :=
  (parse_offsets_nodup text).sublist
    (((mentioned_sublist_marksIn _).trans (marksIn_sublist _)).map Token.offset)

/-- Resolving changes no token of a reference. -/
theorem resolve_mentioned {quiet : Prop} {text : String} {room : Nat} {tree : List (Stmt Hops)}
    (yields : (resolve (parse text).tree room).Yields quiet tree) :
    mentioned (treeReferences tree) = mentioned (treeReferences (parse text).tree) := by
  have same := (resolve_corresponds yields).sites.same
  rw [treeReferences_eq, treeReferences_eq, ← sitesIn_used [], ← sitesIn_used [], same, mentioned,
    mentioned, List.map_map, List.map_map, List.map_map]
  rfl

/-! ### Places -/

/-- A place in a tree that refers to something. Its index is where it stands among all of them. -/
structure Node (ρ : Type) where
  index : Nat
  use : Use
  reference : Reference ρ

/-- The offset of the token of a place. -/
def Node.offset {ρ : Type} (node : Node ρ) : Nat :=
  node.reference.token.offset

/-- The places in a tree that refer to something. -/
def nodes {ρ : Type} (tree : List (Stmt ρ)) : List (Node ρ) :=
  (treeReferences tree).zipIdx.map fun placed => ⟨placed.2, placed.1.1, placed.1.2⟩

theorem nodes_index {ρ : Type} (tree : List (Stmt ρ)) :
    (nodes tree).map Node.index = List.range (treeReferences tree).length := by
  rw [nodes, List.map_map, List.range_eq_range', ← List.zipIdx_map_snd 0 (treeReferences tree)]
  rfl

/-- What is said of places without their indices is said of the references. -/
theorem nodes_used {ρ : Type} (tree : List (Stmt ρ)) :
    (nodes tree).map (fun node => (node.use, node.reference)) = treeReferences tree := by
  rw [nodes, List.map_map]
  exact List.zipIdx_map_fst 0 (treeReferences tree)

theorem nodes_offset {ρ : Type} (tree : List (Stmt ρ)) :
    (nodes tree).map Node.offset = (mentioned (treeReferences tree)).map Token.offset := by
  rw [mentioned, ← nodes_used tree, List.map_map, List.map_map]
  rfl

/-! ### Tables that are filled -/

/-- Distances by keys. -/
abbrev Register := List (Nat × Nat)

namespace Register

/-- Enters a distance for a key, in the place of the one that there was for the key. -/
def enter (key hops : Nat) : Register → Register
  | [] => [(key, hops)]
  | (other, old) :: more =>
    if other = key then (key, hops) :: more else (other, old) :: enter key hops more

/-- Enters distances one after the other. -/
def enterAll (register entries : Register) : Register :=
  entries.foldl (fun register entry => enter entry.1 entry.2 register) register

theorem enter_of_not_mem {key : Nat} {register : Register} (absent : key ∉ register.map Prod.fst)
    (hops : Nat) : enter key hops register = register ++ [(key, hops)] := by
  induction register with
  | nil => rfl
  | cons entry more ih =>
      obtain ⟨other, old⟩ := entry
      rw [List.map_cons, List.mem_cons, not_or] at absent
      rw [enter, if_neg (Ne.symm absent.1), ih absent.2]
      rfl

/-- **Entries for different keys all stay.** -/
theorem enterAll_eq {register entries : Register}
    (apart : ((register ++ entries).map Prod.fst).Nodup) :
    enterAll register entries = register ++ entries := by
  induction entries generalizing register with
  | nil => exact (List.append_nil register).symm
  | cons entry more ih =>
      have split : register ++ entry :: more = (register ++ [entry]) ++ more := by simp
      have absent : entry.1 ∉ register.map Prod.fst := by
        rw [List.map_append, List.nodup_append] at apart
        exact fun inside => apart.2.2 _ inside _ List.mem_cons_self rfl
      rw [split] at apart ⊢
      rw [← ih apart, enterAll, List.foldl_cons, enter_of_not_mem absent]
      rfl

/-- What places that lead to local declarations enter under their keys. -/
def entries (key : Node Hops → Nat) (order : List (Node Hops)) : Register :=
  order.filterMap fun node => node.reference.target.map fun hops => (key node, hops)

section Entries

variable {key : Node Hops → Nat} {order : List (Node Hops)}

theorem entries_keys_sublist : ((entries key order).map Prod.fst).Sublist (order.map key) := by
  induction order with
  | nil => exact .slnil
  | cons node more ih =>
      rw [entries, List.filterMap_cons]
      cases node.reference.target with
      | none => exact ih.cons _
      | some hops => exact ih.cons_cons _

/-- Under the key of a place stands how far out it leads. -/
theorem lookup_entries (apart : (order.map key).Nodup) :
    ∀ node ∈ order, (entries key order).lookup (key node) = node.reference.target := by
  induction order with
  | nil => exact List.forall_mem_nil _
  | cons first more ih =>
      obtain ⟨absent, others⟩ := List.nodup_cons.mp apart
      refine List.forall_mem_cons.mpr ⟨?_, fun node member => ?_⟩
      · rw [entries, List.filterMap_cons]
        cases first.reference.target with
        | none =>
            refine List.lookup_eq_none_iff.mpr fun entry inside => ?_
            have known := entries_keys_sublist.subset (List.mem_map_of_mem inside)
            exact bne_iff_ne.mpr fun same => absent (same ▸ known)
        | some hops => exact List.lookup_cons_self
      · have other : (key node == key first) = false :=
          beq_false_of_ne fun same => absent (same ▸ List.mem_map_of_mem member)
        rw [entries, List.filterMap_cons]
        cases first.reference.target with
        | none => exact ih others node member
        | some hops =>
            rw [← ih others node member]
            show List.lookup (key node) ((key first, hops) :: entries key more) = _
            rw [List.lookup_cons, other]

theorem enterAll_entries (apart : (order.map key).Nodup) :
    enterAll [] (entries key order) = entries key order :=
  enterAll_eq (apart.sublist entries_keys_sublist)

/-- By offset, it is the table that resolving gives. -/
theorem entries_nodes (resolved : List (Stmt Hops)) :
    entries Node.offset (nodes resolved) =
      (distances resolved).map fun entry => (entry.token.offset, entry.hops) := by
  rw [distances, ← nodes_used resolved, List.filterMap_map, List.map_filterMap, entries]
  refine List.filterMap_congr fun node _ => ?_
  rw [Function.comp_apply, Option.map_map]
  rfl

end Entries

end Register

/-- Places enter how far out they lead in two tables: in one under the place itself, in the other
under the offset of its token. No entry takes the place of another, and under its two keys every
place finds the same, which is where it leads. -/
structure OneTable (order : List (Node Hops)) : Prop where
  byNode : Register.enterAll [] (.entries Node.index order) = .entries Node.index order
  byOffset : Register.enterAll [] (.entries Node.offset order) = .entries Node.offset order
  same : ∀ node ∈ order,
    (Register.enterAll [] (.entries Node.offset order)).lookup node.offset =
      (Register.enterAll [] (.entries Node.index order)).lookup node.index
  known : ∀ node ∈ order,
    (Register.enterAll [] (.entries Node.index order)).lookup node.index = node.reference.target

theorem OneTable.of_nodup {order : List (Node Hops)} (places : (order.map Node.index).Nodup)
    (offsets : (order.map Node.offset).Nodup) : OneTable order where
  byNode := Register.enterAll_entries places
  byOffset := Register.enterAll_entries offsets
  same node member := by
    rw [Register.enterAll_entries offsets, Register.enterAll_entries places,
      Register.lookup_entries offsets node member, Register.lookup_entries places node member]
  known node member := by
    rw [Register.enterAll_entries places, Register.lookup_entries places node member]

/-- In whatever order the places of a resolved text come. -/
theorem resolve_oneTable {text : String} {room : Nat} {resolved : List (Stmt Hops)}
    (found : (resolve (parse text).tree room).value = some resolved) {order : List (Node Hops)}
    (permuted : order.Perm (nodes resolved)) : OneTable order := by
  have yields : (resolve (parse text).tree room).Yields False resolved := ⟨found, False.elim⟩
  refine .of_nodup ?_ ?_
  · rw [(permuted.map Node.index).nodup_iff, nodes_index]
    exact List.nodup_range
  · rw [(permuted.map Node.offset).nodup_iff, nodes_offset, resolve_mentioned yields]
    exact parse_mentioned_offsets_nodup text

namespace Report

theorem parseText_tree {report : Report} {text : String} {tree : List (Stmt Unit)}
    (read : (report.parseText text).2 = some tree) : tree = (parse text).tree := by
  rw [parseText_conclude] at read
  exact conclude_found read

/-- **No token is used twice in a tree.** Whatever a text is and however it was recovered from its
errors, the tokens that its tree holds stand at different offsets. So do, among them, those of its
references, and so the distances that resolving the tree enters, in whatever order it comes to the
references, are never overwritten and make the same table by reference and by offset: the one that
resolving gives. -/
theorem parseText_apart {report : Report} {text : String} {tree : List (Stmt Unit)}
    (read : (report.parseText text).2 = some tree) :
    ((tokensIn tree).map Token.offset).Nodup ∧
    ((nodes tree).map Node.offset).Nodup ∧
    ∀ room resolved, (resolve tree room).value = some resolved →
      ∀ order : List (Node Hops), order.Perm (nodes resolved) →
        OneTable order ∧
        (Register.enterAll [] (.entries Node.offset order)).Perm
          ((distances resolved).map fun entry => (entry.token.offset, entry.hops)) := by
  obtain rfl := parseText_tree read
  refine ⟨parse_offsets_nodup text, ?_, fun room resolved found order permuted => ?_⟩
  · rw [nodes_offset]
    exact parse_mentioned_offsets_nodup text
  · have table := resolve_oneTable found permuted
    refine ⟨table, ?_⟩
    rw [table.byOffset, ← Register.entries_nodes resolved]
    exact permuted.filterMap _

/-- A text with a declaration that is skipped and a target that is rejected. -/
def patched : String :=
  "\x7b var a = 1; var = 2; \x7b a = a; a + a = a; print a; \x7d \x7d"

/-- The references of its tree, last to first. -/
theorem parseText_apart_patched :
    (({} : Report).parseText patched).1.issues.size = 2 ∧
    ∃ tree, (({} : Report).parseText patched).2 = some tree ∧
      ((tokensIn tree).map Token.offset).Nodup ∧
      ∃ resolved, (resolve tree).value = some resolved ∧
        OneTable (nodes resolved).reverse ∧
        Register.entries Node.offset (nodes resolved).reverse =
          [(48, 1), (35, 1), (31, 1), (28, 1), (24, 1)] := by
  have whole : (({} : Report).parseText patched).2.isSome = true := by decide +kernel
  have entered : (resolve (parse patched).tree).value.map (fun resolved =>
      Register.entries Node.offset (nodes resolved).reverse) =
        some [(48, 1), (35, 1), (31, 1), (28, 1), (24, 1)] := by decide +kernel
  obtain ⟨tree, read⟩ := Option.isSome_iff_exists.mp whole
  obtain rfl := parseText_tree read
  obtain ⟨resolved, found, entries⟩ := Option.map_eq_some_iff.mp entered
  obtain ⟨offsets, _, tables⟩ := parseText_apart read
  exact ⟨by decide +kernel, _, read, offsets, resolved, found,
    (tables _ resolved found _ (List.reverse_perm _)).1, entries⟩

end Report

end Lox
