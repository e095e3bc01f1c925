/-
# `SubtermIndex.Proofs.Sample.RandomTree` — random trees can be indexed

The numbers that are drawn decide how far a drawing branches and which member of a table is taken.
All that is known of them is that they lie below their bounds (`Generator.below_lt`), and no more
is needed: no look at a table fails (`Drawing.tree_eq_some`), and what is drawn is a sample tree
(`isSampleTree_drawTree`), a record of an expression with bounds on its depth and on its operands.

The usual reader reads such a record as a tree of that depth (`IsSampleTree.exists_reads`).  Hence
an index refuses none of them; only two different nodes with one hash are in the way of it
(`drawTree_indexable`).
-/
import SubtermIndex.Sample.RandomTree
import SubtermIndex.Proofs.Sample.Generator
import SubtermIndex.Proofs.Payload.Accepted
import SubtermIndex.Proofs.Indexer.Insert

namespace SubtermIndex.Sample

open Cbor NodeReader

/-! ## No look outside a table -/

theorem variableNames_ne_nil : variableNames ≠ [] := List.cons_ne_nil _ _

theorem operators_ne_nil : Operator.all ≠ [] := List.cons_ne_nil _ _

/-- The number that is drawn for a table is the place of what is taken from it. -/
theorem getElem?_below {α : Type} {table : List α} (inhabited : table ≠ []) (default : α)
    (g : Generator) : table[(g.below table.length).1]? = some (choose table default g).1 := by
  have inside : (g.below table.length).1 < table.length :=
    Generator.below_lt (List.length_pos_of_ne_nil inhabited) g
  show table[(g.below table.length).1]? = some (table.getD (g.below table.length).1 default)
  rw [List.getD_eq_getElem?_getD, List.getElem?_eq_getElem inside, Option.getD_some]

theorem choose_mem {α : Type} {choices : List α} (inhabited : choices ≠ []) (default : α)
    (g : Generator) : (choose choices default g).1 ∈ choices :=
  List.mem_of_getElem? (getElem?_below inhabited default g)

namespace Drawing

variable {α β : Type} {draw : Drawing α} {f : Generator → α × Generator}

theorem bind_of_eq_some {g : Generator} {next : α → Drawing β}
    (drawn : draw g = some (f g)) : (draw >>= next) g = next (f g).1 (f g).2 := by
  show (draw g).bind (fun a => next a.1 a.2) = _
  rw [drawn]
  rfl

theorem bind_below (upper : Nat) (next : Nat → Drawing β) (g : Generator) :
    (below upper >>= next) g = next (g.below upper).1 (g.below upper).2 :=
  rfl

theorem member_eq_some {table : List α} (inhabited : table ≠ []) (default : α) (g : Generator) :
    member table g = some (choose table default g) := by
  rw [member, bind_below, getElem?_below inhabited default]
  rfl

theorem leaf_eq_some (g : Generator) : leaf g = some (randomLeaf g) := by
  rw [leaf, bind_below, randomLeaf]
  dsimp only
  by_cases coin : (g.below 2).1 = 0
  · rw [if_pos coin, if_pos coin]
    rfl
  · rw [if_neg coin, if_neg coin, bind_of_eq_some (member_eq_some variableNames_ne_nil "x" _)]
    rfl

theorem many_eq_some (each : ∀ g, draw g = some (f g)) (count : Nat) (g : Generator) :
    many draw count g = some (drawMany f count g) := by
  induction count generalizing g with
  | zero => rfl
  | succ count ih =>
      rw [many, bind_of_eq_some (each g), bind_of_eq_some (ih _)]
      rfl

theorem tree_eq_some (fanout depth : Nat) (g : Generator) :
    tree fanout depth g = some (drawTree fanout depth g) := by
  induction depth generalizing g with
  | zero => exact leaf_eq_some g
  | succ depth ih =>
      rw [tree, bind_below, drawTree]
      dsimp only
      by_cases die : (g.below 4).1 = 0
      · rw [if_pos die, if_pos die]
        exact leaf_eq_some _
      · rw [if_neg die, if_neg die, bind_below, bind_of_eq_some (many_eq_some ih _ _),
          bind_of_eq_some (member_eq_some operators_ne_nil .plus _)]
        rfl

end Drawing

/-! ## What is drawn -/

/-- The record of an expression over numbers below 4 and the variables, no node of which lies more
than `depth` levels below the root, and with one operand to an operator or up to `fanout`. -/
inductive IsSampleTree (fanout : Nat) : (depth : Nat) → Value → Prop
  | number {depth : Nat} {n : Integer} : 0 ≤ n.val → n.val < 4 →
      IsSampleTree fanout depth (number n)
  | variableNamed {depth : Nat} {name : String} : name ∈ variableNames →
      IsSampleTree fanout depth (variableNamed name)
  | operation {depth : Nat} {op : Operator} {operands : List Value} : 1 ≤ operands.length →
      operands.length ≤ max fanout 1 → (∀ v ∈ operands, IsSampleTree fanout depth v) →
      IsSampleTree fanout (depth + 1) (operation op.name operands)

theorem length_drawMany {α : Type} (draw : Generator → α × Generator) (count : Nat)
    (g : Generator) : (drawMany draw count g).1.length = count := by
  induction count generalizing g with
  | zero => rfl
  | succ count ih =>
      rw [drawMany, List.length_cons, ih]

theorem forall_mem_drawMany {α : Type} {P : α → Prop} {draw : Generator → α × Generator}
    (each : ∀ g, P (draw g).1) (count : Nat) (g : Generator) :
    ∀ a ∈ (drawMany draw count g).1, P a := by
  induction count generalizing g with
  | zero => exact List.forall_mem_nil P
  | succ count ih => exact List.forall_mem_cons.mpr ⟨each g, ih _⟩

theorem isSampleTree_randomLeaf (fanout depth : Nat) (g : Generator) :
    IsSampleTree fanout depth (randomLeaf g).1 := by
  rw [randomLeaf]
  dsimp only
  split
  case isTrue =>
    have small := Generator.below_lt (by decide : 0 < 4) (g.below 2).2
    have same : (UInt64.ofNat ((g.below 2).2.below 4).1).toNat = ((g.below 2).2.below 4).1 :=
      UInt64.toNat_ofNat_of_lt (by rw [UInt64.size]; omega)
    refine .number ?_ ?_
    · exact Int.natCast_nonneg _
    · show ((UInt64.ofNat ((g.below 2).2.below 4).1).toNat : Int) < 4
      omega
  case isFalse => exact .variableNamed (choose_mem variableNames_ne_nil "x" _)

theorem isSampleTree_drawTree (fanout depth : Nat) (g : Generator) :
    IsSampleTree fanout depth (drawTree fanout depth g).1 := by
  induction depth generalizing g with
  | zero => exact isSampleTree_randomLeaf fanout 0 g
  | succ depth ih =>
      rw [drawTree]
      dsimp only
      split
      case isTrue => exact isSampleTree_randomLeaf fanout (depth + 1) _
      case isFalse =>
        have positive : 0 < max fanout 1 := by omega
        have more := Generator.below_lt positive (g.below 4).2
        refine .operation ?_ ?_ (forall_mem_drawMany ih _ _)
        · rw [length_drawMany]
          omega
        · rw [length_drawMany]
          omega

/-! ## What is read -/

/-- Entries that can be encoded as a record make a payload with an encoding. -/
theorem exists_label {entries : Entries} (faultless : Value.Faultless (.record entries)) :
    ∃ l : Label, payloadOf entries = .ok l.payload := by
  obtain ⟨code, written⟩ := exists_encode_of_faultless faultless
  rw [Payload.encode_record_eq_payload, bind_eq_ok_iff] at written
  obtain ⟨p, sorts, written⟩ := written
  refine ⟨⟨p, code, written⟩, ?_⟩
  rw [payloadOf, sorts]

theorem exists_label_leaf (kind : String) {content : Value} (faultless : Value.Faultless content) :
    ∃ l : Label, fieldPayload usualField (leaf kind content) = .ok l.payload := by
  have seen : fieldPayload usualField (leaf kind content) =
      payloadOf [(.text "type", .text kind), (.text "value", content)] := rfl
  rw [seen]
  refine exists_label (Value.faultless_record ?_ ?_)
  · simp [Value.faultless_text, faultless]
  · have differ : keyOf (.text "type") ≠ keyOf (.text "value") := by decide +kernel
    rw [Value.not_repeatsKey_iff (by simp [code?_text_isSome])]
    exact List.pairwise_pair.mpr differ

theorem exists_label_operation (kind : String) (children : List Value) :
    ∃ l : Label, fieldPayload usualField (operation kind children) = .ok l.payload := by
  have seen : fieldPayload usualField (operation kind children) =
      payloadOf [(.text "type", .text kind)] := rfl
  rw [seen]
  refine exists_label (Value.faultless_record ?_ ?_)
  · simp [Value.faultless_text]
  · rw [Value.repeatsKey_record, not_not]
    exact List.pairwise_singleton _ _

theorem exists_reads_leaf (kind : String) {content : Value} (faultless : Value.Faultless content)
    (levels : Nat) :
    ∃ T, (ofField usualField).Reads (leaf kind content) T ∧ T.Within (levels + 1) := by
  obtain ⟨l, payload⟩ := exists_label_leaf kind faultless
  exact ⟨.node l [], .node payload rfl .nil, List.forall_mem_nil _⟩

namespace IsSampleTree

variable {fanout depth : Nat} {v : Value}

theorem exists_reads (h : IsSampleTree fanout depth v) :
    ∃ T, (ofField usualField).Reads v T ∧ T.Within (depth + 1) := by
  induction h with
  | @number depth n _ _ =>
      exact exists_reads_leaf "value" (Value.faultless_int n) depth
  | @variableNamed depth name _ =>
      exact exists_reads_leaf "variable" (Value.faultless_text name) depth
  | @operation depth op operands _ _ _ ih =>
      obtain ⟨l, payload⟩ := exists_label_operation op.name operands
      obtain ⟨Ts, all⟩ := exists_forall₂ ih
      refine ⟨.node l Ts, .node payload rfl (all.imp fun _ _ read => read.1), ?_⟩
      intro T mem
      obtain ⟨v, -, -, within⟩ := exists_of_forall₂_left all.flip mem
      exact within

theorem of_below {node : Value} (h : IsSampleTree fanout depth v)
    (below : (ofField usualField).Below v node) :
    ∃ depth', IsSampleTree fanout depth' node := by
  induction below with
  | self => exact ⟨depth, h⟩
  | @child b c children _ found mem ih =>
      obtain ⟨depth', parent⟩ := ih
      cases parent with
      | number _ _ =>
          obtain rfl : [] = children := Except.ok.inj found
          cases mem
      | variableNamed _ =>
          obtain rfl : [] = children := Except.ok.inj found
          cases mem
      | @operation depth _ operands _ _ each =>
          obtain rfl : operands = children := Except.ok.inj found
          exact ⟨depth, each c mem⟩

end IsSampleTree

/-- A record with a type and a list of children. -/
def IsNode (v : Value) : Prop :=
  ∃ entries kind children, v = .record entries ∧ (.text "type", .text kind) ∈ entries ∧
    (.text usualField, .list children) ∈ entries

theorem IsSampleTree.isNode {fanout depth : Nat} {v : Value} (h : IsSampleTree fanout depth v) :
    IsNode v := by
  cases h with
  | number _ _ => exact ⟨_, "value", [], rfl, by simp, by simp [usualField]⟩
  | variableNamed _ => exact ⟨_, "variable", [], rfl, by simp, by simp [usualField]⟩
  | @operation _ op operands _ _ _ =>
      exact ⟨_, op.name, operands, rfl, by simp, by simp [usualField]⟩

/-! ## The main statement -/

/-- Whatever the state of the generator, a tree is drawn, and no look at a table fails.  It is a
sample tree, and every node of it is a record with a type and a list of children.  The usual
reader finds `depth` levels at most below its root; and if the depth limit allows for these, then
whatever the digest and whatever is in the index, the only error that a call on the tree can give
is a collision. -/
theorem drawTree_indexable (fanout depth : Nat) (g : Generator) :
    ∃ v g', drawTree fanout depth g = (v, g') ∧ Drawing.tree fanout depth g = some (v, g') ∧
      IsSampleTree fanout depth v ∧
      (∀ node, (ofField usualField).Below v node → IsNode node) ∧
      (∃ T, (ofField usualField).Reads v T ∧ T.Within (depth + 1)) ∧
      ∀ (ix : Indexer Value) (m : Index) (e : TreeError), ix.reader = ofField usualField →
        depth ≤ ix.maxDepth → (ix.insert v m).mapError Failure.toError = .error e →
        ∃ h, e = .collision h := by
  have sample := isSampleTree_drawTree fanout depth g
  refine ⟨_, _, rfl, Drawing.tree_eq_some fanout depth g, sample, ?_, sample.exists_reads, ?_⟩
  · intro node below
    obtain ⟨_, sub⟩ := sample.of_below below
    exact sub.isNode
  · intro ix m e reader deep fails
    obtain ⟨T, reads, within⟩ := sample.exists_reads
    refine Indexer.eq_collision_of_accepts ⟨reader ▸ reads, within.mono ?_⟩ fails
    exact Nat.succ_le_succ deep

/-- What is drawn here is `+z`, and to a digest that gives every message the same hash its two nodes
are one. -/
theorem drawTree_indexable_plus :
    1 ≤ Indexer.splitSample.maxDepth ∧
      (Indexer.splitSample.insert (operation "plus" [variableNamed "z"]) ∅).mapError
          Failure.toError = .error (.collision ⟨.zero⟩) ∧
      ∃ h, TreeError.collision ⟨.zero⟩ = .collision h := by
  have collides : (Indexer.splitSample.insert (operation "plus" [variableNamed "z"]) ∅).mapError
      Failure.toError = .error (.collision ⟨.zero⟩) := by
    rw [Indexer.insert, Indexer.walk_eq_walkDirect]
    rfl
  obtain ⟨v, g, drawn, -, -, -, -, only⟩ := drawTree_indexable 2 1 (.ofSeed 2)
  have value : (drawTree 2 1 (.ofSeed 2)).1 = operation "plus" [variableNamed "z"] := by rfl
  have shallow : 1 ≤ Indexer.splitSample.maxDepth := by decide
  rw [drawn] at value
  subst value
  exact ⟨shallow, collides, only Indexer.splitSample ∅ _ rfl shallow collides⟩

end SubtermIndex.Sample
