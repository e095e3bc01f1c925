/-
# `SubtermIndex.Proofs.Lists` — lists that are related member by member

Trees and values have lists of parts, and a relation between wholes comes with one between the
lists.  These are the few laws of `List.Forall₂` that are needed beyond the library's, and what
they say about computations that are made for every member of a list.

Computations that end alike (`Except.EndAlike`) either fail with one error or give related
results.  Such computations may follow one another, so that two programs of one form are compared
part by part.
-/
import Mathlib.Data.List.Forall2

namespace SubtermIndex

/-! ## Related lists -/

theorem forall₂_imp_of_mem {α β : Type*} {R S : α → β → Prop} {as : List α} {bs : List β}
    (h : List.Forall₂ R as bs) (imp : ∀ a ∈ as, ∀ b ∈ bs, R a b → S a b) :
    List.Forall₂ S as bs := by
  induction h with
  | nil => exact .nil
  | cons hab _ ih =>
      simp only [List.forall_mem_cons] at imp
      exact .cons (imp.1.1 hab) (ih fun a ha => (imp.2 a ha).2)

/-- A member of one of two related lists is related to a member of the other one. -/
theorem exists_of_forall₂_left {α β : Type*} {R : α → β → Prop} {as : List α} {bs : List β}
    (h : List.Forall₂ R as bs) {a : α} (ha : a ∈ as) : ∃ b ∈ bs, R a b := by
  induction h with
  | nil => simp at ha
  | cons hab _ ih =>
      rcases List.mem_cons.mp ha with rfl | ha
      · exact ⟨_, List.mem_cons_self, hab⟩
      · obtain ⟨b, hb, hab⟩ := ih ha
        exact ⟨b, List.mem_cons_of_mem _ hb, hab⟩

/-- Lists that are related to the same one are equal if their members are. -/
theorem eq_of_forall₂ {α β : Type*} {R : α → β → Prop} {as : List α} {bs bs' : List β}
    (h : List.Forall₂ R as bs) (h' : List.Forall₂ R as bs')
    (unique : ∀ b ∈ bs, ∀ a b', R a b → R a b' → b = b') : bs = bs' := by
  induction h generalizing bs' with
  | nil =>
      cases h'
      rfl
  | cons hab _ ih =>
      cases h' with
      | cons hab' rest' =>
          rw [List.forall_mem_cons] at unique
          rw [unique.1 _ _ hab hab', ih rest' unique.2]

theorem forall₂_trans {α : Type*} {R : α → α → Prop} (trans : ∀ {a b c}, R a b → R b c → R a c)
    {as bs cs : List α} (h : List.Forall₂ R as bs) (h' : List.Forall₂ R bs cs) :
    List.Forall₂ R as cs := by
  induction h generalizing cs with
  | nil => exact h'
  | cons hab _ ih =>
      cases h' with
      | cons hbc rest => exact .cons (trans hab hbc) (ih rest)

/-- Where every member of a list is related to something, the list is related to a list. -/
theorem exists_forall₂ {α β : Type*} {R : α → β → Prop} {as : List α}
    (h : ∀ a ∈ as, ∃ b, R a b) : ∃ bs, List.Forall₂ R as bs := by
  induction as with
  | nil => exact ⟨[], .nil⟩
  | cons a rest ih =>
      rw [List.forall_mem_cons] at h
      obtain ⟨b, hb⟩ := h.1
      obtain ⟨bs, hbs⟩ := ih h.2
      exact ⟨b :: bs, .cons hb hbs⟩

/-- What is related to two rows together falls into what is related to the one and the other. -/
theorem exists_append_of_forall₂ {α β : Type*} {R : α → β → Prop} {as as' : List α} {bs : List β}
    (h : List.Forall₂ R (as ++ as') bs) :
    ∃ cs ds, bs = cs ++ ds ∧ List.Forall₂ R as cs ∧ List.Forall₂ R as' ds := by
  induction as generalizing bs with
  | nil => exact ⟨[], bs, rfl, .nil, h⟩
  | cons a rest ih =>
      cases h with
      | cons first others =>
          obtain ⟨cs, ds, rfl, left, right⟩ := ih others
          exact ⟨_ :: cs, ds, rfl, .cons first left, right⟩

/-- For two rows that are both related to a third one, member by member, there is a fourth. -/
theorem exists_forall₂_of_diamond {α β γ δ : Type*} {R : α → β → Prop} {S : α → γ → Prop}
    {P : γ → δ → Prop} {Q : β → δ → Prop} {as : List α} {bs : List β} {cs : List γ}
    (hb : List.Forall₂ R as bs) (hc : List.Forall₂ S as cs)
    (close : ∀ a ∈ as, ∀ b ∈ bs, ∀ c, R a b → S a c → ∃ d, P c d ∧ Q b d) :
    ∃ ds, List.Forall₂ P cs ds ∧ List.Forall₂ Q bs ds := by
  induction hb generalizing cs with
  | nil =>
      cases hc
      exact ⟨[], .nil, .nil⟩
  | @cons a b as bs hab _ ih =>
      cases hc with
      | @cons _ c _ cs hac rest =>
          obtain ⟨d, hd, hd'⟩ :=
            close a List.mem_cons_self b List.mem_cons_self c hab hac
          obtain ⟨ds, hds, hds'⟩ := ih rest fun a ha b hb =>
            close a (List.mem_cons_of_mem _ ha) b (List.mem_cons_of_mem _ hb)
          exact ⟨d :: ds, .cons hd hds, .cons hd' hds'⟩

/-! ## One member replaced -/

section

variable {α : Type*} {as : List α} {i : Nat} {a : α}

theorem getElem?_set_eq {b : α} (place : as[i]? = some a) (j : Nat) :
    (as.set i b)[j]? = if i = j then some b else as[j]? := by
  have inside : i < as.length := (List.getElem?_eq_some_iff.mp place).1
  rw [List.getElem?_set, if_pos inside]

/-- A list falls apart at any of its places, and is put together again with another member there. -/
theorem exists_set_eq (place : as[i]? = some a) :
    ∃ before after, as = before ++ a :: after ∧ ∀ b, as.set i b = before ++ b :: after := by
  obtain ⟨inside, rfl⟩ := List.getElem?_eq_some_iff.mp place
  refine ⟨as.take i, as.drop (i + 1), ?_, ?_⟩
  · rw [← List.drop_eq_getElem_cons inside, List.take_append_drop]
  · intro b
    exact List.set_eq_take_append_cons_drop ▸ if_pos inside

end

/-! ## Computations that may fail -/

theorem exists_eq_ok {ε α : Type*} {e : Except ε α} (h : e.toBool = true) : ∃ a, e = .ok a := by
  cases e with
  | error cause => cases h
  | ok a => exact ⟨a, rfl⟩

theorem mapM_eq_some_of_forall₂ {α β γ : Type*} {f : α → Option β} {g : γ → α} {as : List γ}
    {bs : List β} (h : List.Forall₂ (fun a b => f (g a) = some b) as bs) :
    (as.map g).mapM f = some bs := by
  induction h with
  | nil => rfl
  | cons first _ ih =>
      rw [List.map_cons, List.mapM_cons, first, ih]
      rfl

/-- A computation for every member of a list succeeds when each of them does. -/
theorem mapM_eq_ok_iff {ε α β : Type} {f : α → Except ε β} {as : List α} {bs : List β} :
    as.mapM f = .ok bs ↔ List.Forall₂ (fun a b => f a = .ok b) as bs := by
  induction as generalizing bs with
  | nil =>
      rw [List.mapM_nil, List.forall₂_nil_left_iff]
      constructor
      · intro h
        exact (Except.ok.inj h).symm
      · rintro rfl
        rfl
  | cons a rest ih =>
      rw [List.mapM_cons, List.forall₂_cons_left_iff]
      cases first : f a with
      | error cause => simp [bind, Except.bind]
      | ok b =>
          cases others : rest.mapM f with
          | error cause =>
              simp only [others, reduceCtorEq, false_iff] at ih
              simp [bind, Except.bind, ih]
          | ok tail =>
              constructor
              · intro h
                exact ⟨b, tail, rfl, ih.mp others, (Except.ok.inj h).symm⟩
              · rintro ⟨b', tail', same, all, rfl⟩
                cases same
                rw [ih.mpr all] at others
                cases others
                rfl

theorem exists_mapM {ε α β : Type} {f : α → Except ε β} {as : List α}
    (each : ∀ a ∈ as, ∃ b, f a = .ok b) : ∃ bs, as.mapM f = .ok bs := by
  obtain ⟨bs, all⟩ := exists_forall₂ each
  exact ⟨bs, mapM_eq_ok_iff.mpr all⟩

/-- A computation for every member of a list fails where it fails for one of them. -/
theorem exists_of_mapM_eq_error {ε α β : Type} {f : α → Except ε β} {as : List α} {e : ε}
    (h : as.mapM f = .error e) : ∃ a ∈ as, f a = .error e := by
  induction as with
  | nil => cases h
  | cons a rest ih =>
      rw [List.mapM_cons] at h
      cases first : f a with
      | error cause =>
          rw [first] at h
          cases h
          exact ⟨a, List.mem_cons_self, first⟩
      | ok b =>
          cases others : rest.mapM f with
          | error cause =>
              rw [first, others] at h
              cases h
              obtain ⟨a', mem, fails⟩ := ih others
              exact ⟨a', List.mem_cons_of_mem a mem, fails⟩
          | ok tail =>
              rw [first, others] at h
              cases h

/-- What is made of every result may be made of the list of them. -/
theorem mapM_map_result {ε α β γ : Type} (f : α → Except ε β) (g : β → γ) (as : List α) :
    (as.mapM fun a => (f a).map g) = (as.mapM f).map (List.map g) := by
  induction as with
  | nil => rfl
  | cons a rest ih =>
      rw [List.mapM_cons, List.mapM_cons, ih]
      cases f a with
      | error e => rfl
      | ok b =>
          cases rest.mapM f with
          | error e => rfl
          | ok bs => rfl

theorem bind_eq_ok_iff {ε α β : Type*} {x : Except ε α} {f : α → Except ε β} {b : β} :
    x.bind f = .ok b ↔ ∃ a, x = .ok a ∧ f a = .ok b := by
  cases x with
  | error e => simp [Except.bind]
  | ok a => simp [Except.bind]

theorem bind_eq_error_iff {ε α β : Type*} {x : Except ε α} {f : α → Except ε β} {e : ε} :
    x.bind f = .error e ↔ x = .error e ∨ ∃ a, x = .ok a ∧ f a = .error e := by
  cases x with
  | error e' => simp [Except.bind]
  | ok a => simp [Except.bind]

/-! ## Computations that end alike -/

/-- Whether two computations fail in the same way, or end with related results. -/
inductive EndAlike {ε α β : Type*} (R : α → β → Prop) : Except ε α → Except ε β → Prop
  | ok {a : α} {b : β} : R a b → EndAlike R (.ok a) (.ok b)
  | error (e : ε) : EndAlike R (.error e) (.error e)

namespace EndAlike

variable {ε α β γ δ : Type*} {R : α → β → Prop} {S : γ → δ → Prop} {x : Except ε α}
  {y : Except ε β}

theorem bind {f : α → Except ε γ} {g : β → Except ε δ} (h : EndAlike R x y)
    (next : ∀ a b, R a b → EndAlike S (f a) (g b)) : EndAlike S (x.bind f) (y.bind g) := by
  cases h with
  | ok related => exact next _ _ related
  | error e => exact .error e

theorem map {f : α → γ} {g : β → δ} (h : EndAlike R x y)
    (results : ∀ a b, R a b → S (f a) (g b)) : EndAlike S (x.map f) (y.map g) := by
  cases h with
  | ok related => exact .ok (results _ _ related)
  | error e => exact .error e

/-- What is known of the first result may be kept beside the relation. -/
theorem and_left {P : α → Prop} (h : EndAlike R x y) (known : ∀ a, x = .ok a → P a) :
    EndAlike (fun a b => R a b ∧ P a) x y := by
  cases h with
  | ok related => exact .ok ⟨related, known _ rfl⟩
  | error e => exact .error e

end EndAlike

/-- Whether two results are equal, and the states that come with them are related. -/
def EqWith {γ σ τ : Type*} (S : σ → τ → Prop) (x : γ × σ) (y : γ × τ) : Prop :=
  x.1 = y.1 ∧ S x.2 y.2

end SubtermIndex
