/-
# `SubtermIndex.Proofs.Groups` — groupings are determined by who is a member

A grouping that keeps no key without members (`Full`) is determined by `hasMember` (`Full.ext`).
Adding a member and merging keep this, and have the expected members; `pairs` lists every key with
each of its members once, and `memberCount` is the length of that list.

Merging goes through the entries of the right grouping one by one.  It is opened up here once,
into a fold over a list (`merge_eq_foldl`), and everything else about it is an induction on the
list.
-/
import SubtermIndex.Groups
import Mathlib.Data.List.Nodup

namespace SubtermIndex.Groups

open Std

variable {α β : Type} [Ord α] [Ord β] [TransOrd α] [TransOrd β]

def Full (g : Groups α β) : Prop :=
  ∀ (a : α) (there : ExtTreeSet β), g[a]? = some there → ∃ b, b ∈ there

theorem full_empty : Full (∅ : Groups α β) := by
  intro a there h
  simp at h

theorem hasMember_of_getElem? {g : Groups α β} {a : α} {there : ExtTreeSet β}
    (h : g[a]? = some there) (b : β) : hasMember g a b = there.contains b := by
  simp [hasMember, members, h]

theorem not_hasMember_of_getElem? {g : Groups α β} {a : α} (h : g[a]? = none) (b : β) :
    hasMember g a b = false := by
  simp [hasMember, members, h]

/-- A full grouping has an entry exactly for the keys with members. -/
theorem Full.mem_iff {g : Groups α β} (full : Full g) {a : α} :
    a ∈ g ↔ ∃ b, hasMember g a b = true := by
  cases h : g[a]? with
  | none =>
      have missing : a ∉ g := by simp [ExtTreeMap.mem_iff_isSome_getElem?, h]
      simp [missing, not_hasMember_of_getElem? h]
  | some there =>
      have present : a ∈ g := ExtTreeMap.mem_iff_isSome_getElem?.mpr (by rw [h]; rfl)
      obtain ⟨b, hb⟩ := full a there h
      have : hasMember g a b = true := by
        rw [hasMember_of_getElem? h]
        exact hb
      exact iff_of_true present ⟨b, this⟩

theorem Full.addMember {g : Groups α β} (full : Full g) (a : α) (b : β) :
    Full (Groups.addMember g a b) := by
  intro c there h
  simp only [Groups.addMember, ExtTreeMap.getElem?_alter] at h
  split at h
  · obtain rfl := Option.some.inj h
    exact ⟨b, ExtTreeSet.mem_insert_self⟩
  · exact full c there h

/-! ## Merging -/

/-- What merging does with one entry of the right grouping. -/
def absorb (g : Groups α β) (entry : α × ExtTreeSet β) : Groups α β :=
  g.alter entry.1 (extend entry.2)

theorem merge_eq_foldl (g h : Groups α β) : merge g h = h.toList.foldl absorb g :=
  ExtTreeMap.foldl_eq_foldl_toList

theorem Full.absorb {g : Groups α β} (full : Full g) {entry : α × ExtTreeSet β}
    (nonempty : ∃ b, b ∈ entry.2) : Full (Groups.absorb g entry) := by
  intro c there h
  simp only [Groups.absorb, ExtTreeMap.getElem?_alter] at h
  split at h
  · obtain rfl := Option.some.inj h
    obtain ⟨b, hb⟩ := nonempty
    exact ⟨b, ExtTreeSet.mem_union_of_right hb⟩
  · exact full c there h

theorem Full.foldl_absorb {entries : List (α × ExtTreeSet β)} {g : Groups α β} (full : Full g)
    (nonempty : ∀ entry ∈ entries, ∃ b, b ∈ entry.2) : Full (entries.foldl Groups.absorb g) := by
  induction entries generalizing g with
  | nil => exact full
  | cons entry rest ih =>
      rw [List.forall_mem_cons] at nonempty
      exact ih (full.absorb nonempty.1) nonempty.2

variable [LawfulEqOrd α]

theorem hasMember_absorb [DecidableEq α] (g : Groups α β) (entry : α × ExtTreeSet β) (a : α)
    (b : β) :
    hasMember (absorb g entry) a b = (hasMember g a b || (entry.1 = a && entry.2.contains b)) := by
  simp only [hasMember, members, absorb, ExtTreeMap.getElem?_alter, Std.compare_eq_iff_eq]
  by_cases h : entry.1 = a
  · subst h
    simp [extend, ExtTreeSet.contains_union]
  · simp [h]

theorem hasMember_foldl_absorb [DecidableEq α] (entries : List (α × ExtTreeSet β))
    (g : Groups α β) (a : α) (b : β) :
    hasMember (entries.foldl Groups.absorb g) a b = true ↔
      hasMember g a b = true ∨ ∃ entry ∈ entries, entry.1 = a ∧ entry.2.contains b = true := by
  induction entries generalizing g with
  | nil => simp
  | cons entry rest ih =>
      rw [List.foldl_cons, ih, hasMember_absorb]
      simp [or_assoc]

theorem hasMember_iff_mem_toList (g : Groups α β) (a : α) (b : β) :
    hasMember g a b = true ↔ ∃ entry ∈ g.toList, entry.1 = a ∧ entry.2.contains b = true := by
  constructor
  · intro h
    cases there : g[a]? with
    | none =>
        rw [not_hasMember_of_getElem? there] at h
        exact absurd h Bool.false_ne_true
    | some members =>
        rw [hasMember_of_getElem? there] at h
        exact ⟨(a, members), ExtTreeMap.mem_toList_iff_getElem?_eq_some.mpr there, rfl, h⟩
  · rintro ⟨⟨_, members⟩, listed, rfl, h⟩
    have there := ExtTreeMap.mem_toList_iff_getElem?_eq_some.mp listed
    rw [hasMember_of_getElem? there]
    exact h

theorem hasMember_merge [DecidableEq α] (g h : Groups α β) (a : α) (b : β) :
    hasMember (merge g h) a b = (hasMember g a b || hasMember h a b) := by
  rw [Bool.eq_iff_iff, merge_eq_foldl, hasMember_foldl_absorb, Bool.or_eq_true,
    hasMember_iff_mem_toList h]

theorem Full.merge {g h : Groups α β} (full : Full g) (full' : Full h) :
    Full (Groups.merge g h) := by
  rw [merge_eq_foldl]
  refine full.foldl_absorb fun entry listed => full' entry.1 entry.2 ?_
  exact ExtTreeMap.mem_toList_iff_getElem?_eq_some.mp listed

variable [LawfulEqOrd β]

theorem Full.ext {g h : Groups α β} (full : Full g) (full' : Full h)
    (same : ∀ a b, hasMember g a b = hasMember h a b) : g = h := by
  apply ExtTreeMap.ext_getElem?
  intro a
  have keys : a ∈ g ↔ a ∈ h := by
    rw [full.mem_iff, full'.mem_iff]
    simp only [same]
  cases there : g[a]? with
  | none =>
      have missing : a ∉ g := by simp [ExtTreeMap.mem_iff_isSome_getElem?, there]
      exact (ExtTreeMap.getElem?_eq_none (mt keys.mpr missing)).symm
  | some members =>
      have present : a ∈ h := keys.mp (by simp [ExtTreeMap.mem_iff_isSome_getElem?, there])
      obtain ⟨members', there'⟩ := Option.isSome_iff_exists.mp
        (ExtTreeMap.mem_iff_isSome_getElem?.mp present)
      have : members = members' := by
        refine ExtTreeSet.ext_contains ?_
        intro b
        rw [← hasMember_of_getElem? there, ← hasMember_of_getElem? there', same]
      rw [there', this]

/-! ## The list of pairs -/

theorem mem_pairs {g : Groups α β} {a : α} {b : β} :
    (a, b) ∈ pairs g ↔ hasMember g a b = true := by
  rw [hasMember_iff_mem_toList]
  simp only [pairs, List.mem_flatMap, List.mem_map, Prod.mk.injEq, ExtTreeSet.mem_toList,
    ExtTreeSet.mem_iff_contains]
  constructor
  · rintro ⟨entry, listed, b', hb, rfl, rfl⟩
    exact ⟨entry, listed, rfl, hb⟩
  · rintro ⟨entry, listed, rfl, hb⟩
    exact ⟨entry, listed, b, hb, rfl, rfl⟩

theorem nodup_pairs (g : Groups α β) : (pairs g).Nodup := by
  refine List.nodup_flatMap.mpr ⟨?_, ?_⟩
  · intro entry _
    refine List.Nodup.map (fun b b' h => (Prod.mk.inj h).2) ?_
    refine ExtTreeSet.distinct_toList.imp ?_
    rintro b _ h rfl
    exact h ReflOrd.compare_self
  · refine ExtTreeMap.distinct_keys_toList.imp ?_
    intro x y h
    simp only [Function.onFun, List.disjoint_left, List.mem_map]
    rintro _ ⟨b, -, rfl⟩ ⟨b', -, same⟩
    rw [(Prod.mk.inj same).1] at h
    exact h ReflOrd.compare_self

theorem perm_pairs {g h : Groups α β} (same : ∀ a b, hasMember g a b = hasMember h a b) :
    (pairs g).Perm (pairs h) := by
  rw [List.perm_ext_iff_of_nodup (nodup_pairs g) (nodup_pairs h)]
  rintro ⟨a, b⟩
  rw [mem_pairs, mem_pairs, same]

theorem perm_pairs_addMember [DecidableEq α] [DecidableEq β] {g : Groups α β} {a : α} {b : β}
    (new : hasMember g a b = false) :
    (pairs (Groups.addMember g a b)).Perm ((a, b) :: pairs g) := by
  have missing : (a, b) ∉ pairs g := by simp [mem_pairs, new]
  rw [List.perm_ext_iff_of_nodup (nodup_pairs _) (List.nodup_cons.mpr ⟨missing, nodup_pairs g⟩)]
  rintro ⟨c, d⟩
  simp only [mem_pairs, hasMember_addMember, List.mem_cons, Prod.mk.injEq, Bool.or_eq_true,
    decide_eq_true_eq, eq_comm (a := a), eq_comm (a := b)]

/-! ## The number of members -/

omit [LawfulEqOrd α] [LawfulEqOrd β] in
theorem memberCount_eq_length (g : Groups α β) : memberCount g = (pairs g).length := by
  have sum (entries : List (α × ExtTreeSet β)) (n : Nat) :
      entries.foldl (fun n entry => n + entry.2.size) n =
        n + (entries.flatMap fun entry => entry.2.toList.map fun b => (entry.1, b)).length := by
    induction entries generalizing n with
    | nil => rfl
    | cons entry rest ih =>
        rw [List.foldl_cons, ih, List.flatMap_cons, List.length_append, List.length_map,
          ExtTreeSet.length_toList]
        omega
  rw [memberCount, ExtTreeMap.foldl_eq_foldl_toList, sum, Nat.zero_add, pairs]

theorem memberCount_congr {g h : Groups α β} (same : ∀ a b, hasMember g a b = hasMember h a b) :
    memberCount g = memberCount h := by
  rw [memberCount_eq_length, memberCount_eq_length, (perm_pairs same).length_eq]

theorem memberCount_addMember [DecidableEq α] [DecidableEq β] {g : Groups α β} {a : α} {b : β}
    (new : hasMember g a b = false) : memberCount (Groups.addMember g a b) = memberCount g + 1 := by
  rw [memberCount_eq_length, memberCount_eq_length, (perm_pairs_addMember new).length_eq,
    List.length_cons]

/-! ## Adding the members of a key one by one -/

theorem addMember_of_hasMember {g : Groups α β} {a : α} {b : β} (old : hasMember g a b = true) :
    Groups.addMember g a b = g := by
  cases found : g[a]? with
  | none => simp [not_hasMember_of_getElem? found] at old
  | some there =>
      rw [hasMember_of_getElem? found] at old
      have same : there.insert b = there := by
        refine ExtTreeSet.ext_contains ?_
        intro c
        rw [ExtTreeSet.contains_insert, Bool.eq_iff_iff, Bool.or_eq_true, or_iff_right_iff_imp,
          beq_iff_eq, Std.compare_eq_iff_eq]
        rintro rfl
        exact old
      refine ExtTreeMap.ext_getElem? ?_
      intro c
      rw [Groups.addMember, ExtTreeMap.getElem?_alter, found, Option.getD_some, same]
      split
      case isTrue key =>
        rw [← Std.LawfulEqOrd.eq_of_compare key, found]
      case isFalse => rfl

def addMembers (g : Groups α β) (a : α) (more : List β) : Groups α β :=
  more.foldl (fun g b => Groups.addMember g a b) g

omit [LawfulEqOrd β] in
theorem addMembers_alter (g : Groups α β) (a : α) (start : Option (ExtTreeSet β) → ExtTreeSet β)
    (more : List β) :
    addMembers (g.alter a fun there => some (start there)) a more =
      g.alter a fun there => some (more.foldl ExtTreeSet.insert (start there)) := by
  induction more generalizing start with
  | nil => rfl
  | cons b rest ih =>
      have first : Groups.addMember (g.alter a fun there => some (start there)) a b =
          g.alter a fun there => some ((start there).insert b) := by
        refine ExtTreeMap.ext_getElem? ?_
        intro c
        simp only [Groups.addMember, ExtTreeMap.getElem?_alter]
        split <;> simp
      rw [addMembers, List.foldl_cons, first, ← addMembers, ih]
      rfl

theorem mem_foldl_insert (more : List β) (there : ExtTreeSet β) (b : β) :
    b ∈ more.foldl ExtTreeSet.insert there ↔ b ∈ there ∨ b ∈ more := by
  induction more generalizing there with
  | nil => simp
  | cons c rest ih =>
      rw [List.foldl_cons, ih, ExtTreeSet.mem_insert, Std.compare_eq_iff_eq, List.mem_cons,
        eq_comm (a := c)]
      tauto

/-- To open a key and to add members to it one by one is to add the set of them. -/
theorem addMembers_toList (g : Groups α β) (a : α) (more : ExtTreeSet β) :
    addMembers (g.alter a fun there => some (there.getD ∅)) a more.toList =
      absorb g (a, more) := by
  have union (there : ExtTreeSet β) : more.toList.foldl ExtTreeSet.insert there = there ∪ more := by
    refine ExtTreeSet.ext_mem ?_
    intro b
    rw [mem_foldl_insert, ExtTreeSet.mem_union_iff, ExtTreeSet.mem_toList]
  rw [addMembers_alter g a fun there => there.getD ∅]
  simp only [union]
  rfl

end SubtermIndex.Groups
