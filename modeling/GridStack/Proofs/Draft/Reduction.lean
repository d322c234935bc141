import Mathlib.Data.List.Chain
import Mathlib.Logic.Relation
import GridStack.Proofs.Draft.Calls
import GridStack.Proofs.Draft.Labels

/-!
# Fused code is reduced code

Generation with fusion gives the code that generation without it gives, reduced: from left to right each
pop that stands directly behind a push becomes a copy, or nothing when the registers are the same. Taking a
pair out can bring another push in front of a pop, which then is the next pair. `Code.Reduces` is one such
step, `Code.Reduction` all of them, and there is only one result (`Code.Reduction.unique`).

Fusion looks at the last instruction only. That it reduces the whole is `Code.reduction_squeeze`: what has
been appended is settled at any time, so the first pair of the whole is its last instruction and the next
one. That generation does nothing else with fusion is `Emit.Fusible`, an equation between two runs: where
the one ends with a draft the other one ends with that draft reduced, and where the one fails the other one
fails with the same error. It is closed under one part behind another, and the proofs follow the tree.
-/

namespace GridStack

/-- Pushes and pops are made with a register, and have nothing else. -/
def Instr.Simple (i : Instr) : Prop :=
  i.op = .push ∨ i.op = .pop → ∃ r, i = .imm i.op r

namespace Instr

variable {i : Instr}

/-- Instructions with a number are simple. -/
theorem simple_imm (op : Opcode) (r : Int32) : (imm op r).Simple :=
  fun _ => ⟨r, rfl⟩

/-- So are those that neither push nor pop a register. -/
theorem simple_of_op (push : i.op ≠ .push) (pop : i.op ≠ .pop) : i.Simple :=
  fun either => (either.elim push pop).elim

end Instr

namespace Code

/-- A pop directly behind a push, and what the two become. -/
inductive Fuses : Instr → Instr → List Instr → Prop
  | copy {source dest : Int32} (other : dest ≠ source) :
      Fuses (.imm .push source) (.imm .pop dest) [.copy dest source]
  | drop {r : Int32} : Fuses (.imm .push r) (.imm .pop r) []

/-- No pop stands directly behind a push. -/
def Settled (code : List Instr) : Prop :=
  code.IsChain fun i j => ¬(i.op = .push ∧ j.op = .pop)

/-- The first pop that stands directly behind a push is fused with it. -/
inductive Reduces : List Instr → List Instr → Prop
  | mk {front back fused : List Instr} {push pop : Instr} (first : Settled (front ++ [push]))
      (pair : Fuses push pop fused) : Reduces (front ++ push :: pop :: back) (front ++ (fused ++ back))

/-- Pairs are fused from left to right until there is none. -/
structure Reduction (code short : List Instr) : Prop where
  steps : Relation.ReflTransGen Reduces code short
  settled : Settled short

/-- The instructions with labels: those that place one and those that name one. -/
def labelled (code : List Instr) : List Instr :=
  code.filter fun i => i.isMarker ∨ i.mark ≠ none ∨ i.targets ≠ []

/-- A pair that can be fused is not settled. -/
theorem Fuses.not_settled {push pop : Instr} {fused : List Instr} (pair : Fuses push pop fused)
    {front back : List Instr} : ¬Settled (front ++ push :: pop :: back) := by
  intro settled
  have here := (List.isChain_append_cons_cons.1 settled).2.1
  cases pair with
  | copy | drop => exact here ⟨rfl, rfl⟩

/-- Two instructions are fused in one way. -/
theorem Fuses.unique {push pop : Instr} {fused fused' : List Instr} (h : Fuses push pop fused)
    (h' : Fuses push pop fused') : fused = fused' := by
  cases h with
  | copy other =>
    cases h' with
    | copy => rfl
    | drop => exact absurd rfl other
  | drop =>
    cases h' with
    | copy other => exact absurd rfl other
    | drop => rfl

/-- In front of a settled part there is no pair. -/
theorem Fuses.length_le {push pop : Instr} {fused : List Instr} (pair : Fuses push pop fused)
    {front back settled rest : List Instr} {last : Instr} (closed : Settled (settled ++ [last]))
    (eq : front ++ push :: pop :: back = settled ++ last :: rest) : settled.length ≤ front.length := by
  by_contra short
  -- Otherwise the whole pair would stand in the settled part.
  have whole : front ++ [push, pop] <+: front ++ push :: pop :: back := ⟨back, by simp⟩
  have part : settled ++ [last] <+: front ++ push :: pop :: back := ⟨rest, by rw [eq]; simp⟩
  have inside : front ++ [push, pop] <+: settled ++ [last] := by
    refine List.prefix_of_prefix_length_le whole part ?_
    simp only [List.length_append, List.length_cons, List.length_nil]
    omega
  obtain ⟨behind, eq'⟩ := inside
  rw [← eq'] at closed
  exact pair.not_settled closed.left_of_append

namespace Reduces

variable {code short short' : List Instr}

/-- What stands behind stays there. -/
theorem append (h : Reduces code short) (behind : List Instr) :
    Reduces (code ++ behind) (short ++ behind) := by
  obtain ⟨first, pair⟩ := h
  simp only [List.append_assoc, List.cons_append]
  exact .mk first pair

/-- Settled code has no pair. -/
theorem not_settled (h : Reduces code short) : ¬Settled code := by
  obtain ⟨-, pair⟩ := h
  exact pair.not_settled

/-- There is only one first pair. -/
theorem unique (h : Reduces code short) (h' : Reduces code short') : short = short' := by
  obtain ⟨first, pair⟩ := h
  generalize whole : _ ++ _ :: _ :: _ = code at h'
  obtain ⟨first', pair'⟩ := h'
  have le := pair.length_le first' whole
  have le' := pair'.length_le first whole.symm
  obtain ⟨rfl, rest⟩ := List.append_inj whole (Nat.le_antisymm le' le)
  cases rest
  rw [pair.unique pair']

/-- Code gets shorter. -/
theorem length_lt (h : Reduces code short) : short.length < code.length := by
  obtain ⟨-, pair⟩ := h
  cases pair with
  | copy | drop =>
    simp only [List.length_append, List.length_cons, List.length_nil]
    omega

/-- What has labels stays as it is. -/
theorem labelled_eq (h : Reduces code short) : labelled short = labelled code := by
  obtain ⟨-, pair⟩ := h
  unfold labelled
  cases pair with
  | copy | drop => simp only [List.filter_append]; rfl

end Reduces

namespace Reduction

variable {code short short' : List Instr}

/-- The result is no longer than the code. -/
theorem length_le (h : Reduction code short) : short.length ≤ code.length := by
  obtain ⟨steps, -⟩ := h
  induction steps with
  | refl => exact Nat.le_refl _
  | tail _ step ih => exact Nat.le_trans (Nat.le_of_lt step.length_lt) ih

/-- The result has the same labels. -/
theorem labelled_eq (h : Reduction code short) : labelled short = labelled code := by
  obtain ⟨steps, -⟩ := h
  induction steps with
  | refl => rfl
  | tail _ step ih => exact step.labelled_eq.trans ih

/-- There is only one result. -/
theorem unique (h : Reduction code short) (h' : Reduction code short') : short = short' := by
  obtain ⟨steps, settled⟩ := h
  obtain ⟨steps', settled'⟩ := h'
  induction steps using Relation.ReflTransGen.head_induction_on with
  | refl =>
    rcases steps'.cases_head with eq | ⟨_, step, -⟩
    · exact eq
    · exact absurd settled step.not_settled
  | head step _ ih =>
    rcases steps'.cases_head with rfl | ⟨_, step', rest⟩
    · exact absurd settled' step.not_settled
    -- Both begin with the same step, as there is only one first pair.
    · rw [← step.unique step'] at rest
      exact ih rest

end Reduction

/-- Code that is given last instruction first, as if it had been appended with fusion. -/
def squeeze (reversed : List Instr) : List Instr :=
  reversed.foldr (Draft.append true) []

/-- No code is as it is. -/
@[simp] theorem squeeze_nil : squeeze [] = [] := rfl

/-- The last instruction is appended to what the others have become. -/
@[simp] theorem squeeze_cons (i : Instr) (before : List Instr) :
    squeeze (i :: before) = Draft.append true i (squeeze before) := rfl

/-- A simple instruction behind simple code is appended as it is, or fused with the last one. -/
theorem append_cases {i : Instr} {code : List Instr} (own : i.Simple) (simple : ∀ j ∈ code, j.Simple) :
    (Draft.append true i code = i :: code ∧ ∀ last ∈ code.head?, ¬(last.op = .push ∧ i.op = .pop)) ∨
      ∃ push before fused, code = push :: before ∧ Fuses push i fused ∧
        Draft.append true i code = fused ++ before := by
  match code with
  | [] => exact .inl ⟨rfl, nofun⟩
  | last :: before =>
    by_cases pair : i.op = .pop ∧ last.op = .push
    · obtain ⟨dest, eq⟩ := own (.inr pair.1)
      obtain ⟨source, eq'⟩ := simple last List.mem_cons_self (.inl pair.2)
      rw [pair.1] at eq
      rw [pair.2] at eq'
      rw [eq, eq']
      refine .inr ⟨_, before, if dest = source then [] else [.copy dest source], rfl, ?_, ?_⟩
      · split
        · next same => rw [same]; exact .drop
        · next other => exact .copy other
      · show (if dest = source then before else .copy dest source :: before) = _
        split <;> rfl
    · refine .inl ⟨?_, ?_⟩
      · rw [Draft.append, if_neg fun fused => pair fused.2]
      · rintro _ ⟨⟩ ⟨push, pop⟩
        exact pair ⟨pop, push⟩

/-- Appending with fusion reduces the whole, and leaves simple code. -/
theorem reduction_squeeze {reversed : List Instr} (simple : ∀ i ∈ reversed, i.Simple) :
    Reduction reversed.reverse (squeeze reversed).reverse ∧ ∀ i ∈ squeeze reversed, i.Simple := by
  induction reversed with
  | nil => exact ⟨⟨.refl, .nil⟩, simple⟩
  | cons i before ih =>
    rw [List.forall_mem_cons] at simple
    obtain ⟨⟨steps, settled⟩, simple'⟩ := ih simple.2
    -- What is in front of the last instruction is reduced first.
    have front : Relation.ReflTransGen Reduces (before.reverse ++ [i]) ((squeeze before).reverse ++ [i]) :=
      Relation.ReflTransGen.lift (· ++ [i]) (fun _ _ step => step.append [i]) _ _ steps
    rw [List.reverse_cons, squeeze_cons]
    rcases append_cases simple.1 simple' with ⟨kept, apart⟩ | ⟨push, rest, fused, eq, pair, kept⟩
    · rw [kept, List.reverse_cons]
      refine ⟨⟨front, ?_⟩, List.forall_mem_cons.2 ⟨simple.1, simple'⟩⟩
      refine List.isChain_append.2 ⟨settled, .singleton _, fun last mem j mem' => ?_⟩
      cases mem'
      rw [List.getLast?_reverse] at mem
      exact apart last mem
    · -- The push that is there no longer was the last of a settled part, so the pair is the first one.
      rw [eq, List.reverse_cons] at settled
      rw [eq, List.reverse_cons, List.append_assoc] at front
      rw [eq, List.forall_mem_cons] at simple'
      have whole : (fused ++ rest).reverse = rest.reverse ++ (fused ++ []) := by
        cases pair with
        | copy | drop => simp
      have closed : Settled rest.reverse := settled.left_of_append
      rw [kept, whole]
      refine ⟨⟨front.tail (.mk settled pair), ?_⟩, ?_⟩
      · cases pair with
        | drop => rwa [List.append_nil, List.append_nil]
        | copy _ =>
          refine List.isChain_append.2 ⟨closed, .singleton _, fun last mem j mem' => ?_⟩
          cases mem'
          exact fun both => nomatch both.2
      · cases pair with
        | drop => exact simple'.2
        | copy _ => exact List.forall_mem_cons.2 ⟨Instr.simple_of_op nofun nofun, simple'.2⟩

/-- The pair inside goes first, and the push in front of it then stands in front of the last pop. -/
example : squeeze [.imm .pop 5, .imm .pop 4, .imm .push 4, .imm .push 3] = [.copy 5 3] := by
  decide

end Code

end GridStack
