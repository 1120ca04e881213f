import SiddhiEditor.Proofs.Construction
import SiddhiEditor.Proofs.LexicalGrammar

/-!
# Refused steps

A step is refused only when no node is open, and then it changes nothing.  For a
text this needs an argument, because its tokens go in one by one.  A token leaves
the open nodes as they are, so either the first token is refused or none is.

So the refused steps of a run can be left out, and the other steps keep their
outcomes (`run_accepted`, `outcomes_accepted`).  What is left is a matter of
counting.  As many nodes are open as there are openings without a closing
(`length_openNodes_run`), and a run ends in a tree if there was an opening and every
opening has its closing (`exists_ofSteps_iff`).

Without an open node, opening one is the only step that changes anything
(`step_of_closed`).  This is so before there is a root and again behind its end.
-/

namespace SiddhiEditor

/-- A step that opens a node. -/
def Step.isOpening : Step → Bool
  | .openNode _ => true
  | _ => false

namespace Draft

variable {d : Draft} {s : Step} {steps : List Step} {fault : BuildFault}

/-! ## One step -/

/-- The steps that a draft has no place for. -/
def Refuses (d : Draft) : Step → Prop
  | .openNode _ => False
  | .closeNode => d.openNodes = []
  | .token _ _ => d.openNodes = []
  | .text text => d.openNodes = [] ∧ text ≠ ""

theorem step_of_closed (hopen : d.openNodes = []) (hs : s.isOpening = false) :
    (d.step s).1 = d := by
  cases s with
  | openNode r => cases hs
  | closeNode => simp [step, closeNode_eq, hopen]
  | token kind text => simp [step, addToken_eq, hopen]
  | text text => simp [step, addText, addTokens_of_closed hopen]

theorem isSome_fault_iff : (d.step s).2.isSome = true ↔ d.Refuses s := by
  by_cases hopen : d.openNodes = []
  · cases s with
    | openNode r => simp [step, Refuses]
    | closeNode => simp [step, closeNode_eq, hopen, Refuses]
    | token kind text => simp [step, addToken_eq, hopen, Refuses]
    | text text =>
      simp [step, addText, addTokens_of_closed hopen, hopen, Refuses, Token.scan_eq_nil_iff]
  · cases s with
    | openNode r => simp [step, Refuses]
    | closeNode => simp [step, closeNode_eq, hopen, Refuses]
    | token kind text => simp [step, addToken_eq, hopen, Refuses]
    | text text =>
      obtain ⟨next, hadd, -⟩ := addTokens_of_open hopen (Token.scan text)
      simp [step, addText, hadd, hopen, Refuses]

/-- A refused step changes nothing. -/
theorem step_of_fault (h : (d.step s).2 = some fault) : (d.step s).1 = d := by
  have hrefuses : d.Refuses s := isSome_fault_iff.mp (by simp [h])
  cases s with
  | openNode r => exact hrefuses.elim
  | closeNode => exact step_of_closed hrefuses rfl
  | token kind text => exact step_of_closed hrefuses rfl
  | text text => exact step_of_closed hrefuses.1 rfl

/-- A step that is not refused opens a node, closes one, or leaves the open nodes as
they are. -/
theorem length_openNodes_step (h : (d.step s).2 = none) :
    (d.step s).1.openNodes.length + [s].count .closeNode =
      d.openNodes.length + [s].countP Step.isOpening := by
  have hplace : ¬d.Refuses s := by
    rw [← isSome_fault_iff, h]
    simp
  cases s with
  | openNode r => simp [step, Draft.openNode, Step.isOpening]
  | closeNode =>
    have hopen : d.openNodes ≠ [] := hplace
    have hlength := List.length_pos_iff.mpr hopen
    rw [step, closeNode_eq, if_neg hopen]
    show d.openNodes.tail.length + 1 = d.openNodes.length
    rw [List.length_tail]
    omega
  | token kind text =>
    have hopen : d.openNodes ≠ [] := hplace
    simp [step, addToken_eq, hopen, extend, push, Step.isOpening]
  | text text =>
    by_cases hopen : d.openNodes = []
    · rw [step_of_closed hopen rfl]
      simp [Step.isOpening]
    · obtain ⟨next, hadd, hsame⟩ := addTokens_of_open hopen (Token.scan text)
      simp [step, addText, hadd, hsame, Step.isOpening]

/-! ## Runs without their refused steps -/

/-- The steps of a run that are not refused. -/
def accepted (d : Draft) (steps : List Step) : List Step :=
  ((steps.zip (d.outcomes steps)).filter fun made => made.2.isOk).map (·.1)

theorem outcomes_of_fault (h : (d.step s).2 = some fault) (rest : List Step) :
    d.outcomes (s :: rest) = .error fault :: d.outcomes rest := by
  simp [outcomes, h, step_of_fault h]

theorem outcomes_of_no_fault (h : (d.step s).2 = none) (rest : List Step) :
    d.outcomes (s :: rest) = .ok (d.step s).1.offset :: (d.step s).1.outcomes rest := by
  simp [outcomes, h]

theorem accepted_of_fault (h : (d.step s).2 = some fault) (rest : List Step) :
    d.accepted (s :: rest) = d.accepted rest := by
  simp [accepted, outcomes_of_fault h, Except.isOk, Except.toBool]

theorem accepted_of_no_fault (h : (d.step s).2 = none) (rest : List Step) :
    d.accepted (s :: rest) = s :: (d.step s).1.accepted rest := by
  simp [accepted, outcomes_of_no_fault h, Except.isOk, Except.toBool]

/-- Refused steps can be left out. -/
theorem run_accepted (d : Draft) (steps : List Step) : d.run (d.accepted steps) = d.run steps := by
  induction steps generalizing d with
  | nil => rfl
  | cons s rest ih =>
    cases h : (d.step s).2 with
    | some fault => rw [accepted_of_fault h, run_cons, step_of_fault h, ih]
    | none => rw [accepted_of_no_fault h, run_cons, run_cons, ih]

/-- The other steps have the outcomes that they had. -/
theorem outcomes_accepted (d : Draft) (steps : List Step) :
    d.outcomes (d.accepted steps) = (d.outcomes steps).filter Except.isOk := by
  induction steps generalizing d with
  | nil => rfl
  | cons s rest ih =>
    cases h : (d.step s).2 with
    | some fault =>
      rw [accepted_of_fault h, outcomes_of_fault h, ih]
      rfl
    | none =>
      rw [accepted_of_no_fault h, outcomes_of_no_fault h, outcomes_of_no_fault h, ih]
      rfl

/-! ## Openings and closings -/

/-- As many nodes are open as there are openings without a closing. -/
theorem length_openNodes_run (d : Draft) (steps : List Step) :
    (d.run steps).openNodes.length + (d.accepted steps).count .closeNode =
      d.openNodes.length + steps.countP Step.isOpening := by
  induction steps generalizing d with
  | nil => rfl
  | cons s rest ih =>
    rw [run_cons, ← List.singleton_append, List.countP_append]
    cases h : (d.step s).2 with
    | some fault =>
      have hs : s.isOpening = false := by
        cases s with
        | openNode r => cases h
        | _ => rfl
      rw [List.singleton_append, accepted_of_fault h, step_of_fault h, ih]
      simp [hs]
    | none =>
      have hfirst := length_openNodes_step h
      have hrest := ih (d.step s).1
      rw [List.singleton_append, accepted_of_no_fault h, ← List.singleton_append,
        List.count_append]
      omega

/-- Without an open node and without an opening nothing changes. -/
theorem run_of_closed (hopen : d.openNodes = []) (h : ∀ s ∈ steps, s.isOpening = false) :
    d.run steps = d := by
  induction steps with
  | nil => rfl
  | cons s rest ih =>
    rw [List.forall_mem_cons] at h
    rw [run_cons, step_of_closed hopen h.1, ih h.2]

/-- A run has rows if and only if it has opened a node. -/
theorem nodes_pos_run_iff (steps : List Step) :
    0 < (empty.run steps).nodes.size ↔ 0 < steps.countP Step.isOpening := by
  rw [List.countP_pos_iff]
  constructor
  · intro hpos
    by_contra hnone
    have hall : ∀ s ∈ steps, s.isOpening = false := by simpa using hnone
    rw [run_of_closed rfl hall] at hpos
    cases hpos
  · intro h
    obtain ⟨s, hs, hopening⟩ := h
    obtain ⟨before, rest, rfl⟩ := List.append_of_mem hs
    cases s with
    | openNode r =>
      rw [run_append, run_cons]
      have hrow : 0 < ((empty.run before).openNode r).nodes.size := by
        rw [size_openNode]
        exact Nat.succ_pos _
      exact Nat.lt_of_lt_of_le hrow (cores_run _ rest).1
    | _ => cases hopening

/-- A run ends in a tree if and only if it opens a node and every opening has its
closing. -/
theorem exists_ofSteps_iff (steps : List Step) :
    (∃ t, Tree.ofSteps steps = .ok t) ↔
      0 < steps.countP Step.isOpening ∧
        steps.countP Step.isOpening = (empty.accepted steps).count .closeNode := by
  have hlength := length_openNodes_run empty steps
  have hbalanced : (empty.run steps).openNodes = [] ↔
      steps.countP Step.isOpening = (empty.accepted steps).count .closeNode := by
    rw [← List.length_eq_zero_iff]
    simp only [empty, List.length_nil] at hlength ⊢
    omega
  simp only [Tree.ofSteps_eq_ok_iff, nodes_pos_run_iff, hbalanced]
  constructor
  · rintro ⟨t, hclosed, hpos, -⟩
    exact ⟨hpos, hclosed⟩
  · rintro ⟨hpos, hclosed⟩
    exact ⟨_, hclosed, hpos, rfl⟩

/-- The mark that a root has been closed agrees with the rows. -/
structure Marked (d : Draft) : Prop where
  /-- An open node has a row. -/
  of_open : d.openNodes ≠ [] → 0 < d.nodes.size
  /-- A closed root has a row. -/
  of_mark : d.rootClosed = true → 0 < d.nodes.size
  /-- A root without open nodes has been closed. -/
  of_closed : d.openNodes = [] → 0 < d.nodes.size → d.rootClosed = true

theorem marked_run (steps : List Step) : (empty.run steps).Marked := by
  apply run_induction
  case hopen =>
    intro d r _
    have hrow : 0 < (d.openNode r).nodes.size := by simp [size_openNode]
    exact ⟨fun _ => hrow, fun _ => hrow, fun hnone _ => by cases hnone⟩
  case hclose =>
    intro d hopen marked
    have hrow := marked.of_open hopen
    refine ⟨fun _ => hrow, fun _ => hrow, fun hlast _ => ?_⟩
    have htail : d.openNodes.tail = [] := hlast
    simp [popNode, htail]
  case htoken =>
    intro d kind text hopen _
    have hrow : 0 < (d.extend kind text).nodes.size := by simp [size_extend]
    exact ⟨fun _ => hrow, fun _ => hrow, fun hnone _ => absurd hnone hopen⟩
  case hd => constructor <;> simp [empty]

/-- A draft can be finished when a root has been closed and no node is open. -/
theorem exists_ofSteps_iff_rootClosed (steps : List Step) :
    (∃ t, Tree.ofSteps steps = .ok t) ↔
      (empty.run steps).openNodes = [] ∧ (empty.run steps).rootClosed = true := by
  have marked := marked_run steps
  simp only [Tree.ofSteps_eq_ok_iff]
  constructor
  · rintro ⟨t, hclosed, hpos, -⟩
    exact ⟨hclosed, marked.of_closed hclosed hpos⟩
  · rintro ⟨hclosed, hmark⟩
    exact ⟨_, hclosed, marked.of_mark hmark, rfl⟩

/-- In every draft that a run leads to, the steps without a place are refused, and a
refused step leaves the draft as it was.  So a run leads to the same draft without its
refused steps.  It ends in a tree if and only if it opens a node and every opening has
its closing. -/
theorem run_refusals (steps : List Step) :
    (∀ s, ((empty.run steps).step s).2.isSome = true ↔ (empty.run steps).Refuses s) ∧
      (∀ s, ((empty.run steps).step s).2.isSome = true →
        ((empty.run steps).step s).1 = empty.run steps) ∧
      empty.run (empty.accepted steps) = empty.run steps ∧
      empty.outcomes (empty.accepted steps) = (empty.outcomes steps).filter Except.isOk ∧
      ((∃ t, Tree.ofSteps steps = .ok t) ↔
        0 < steps.countP Step.isOpening ∧
          steps.countP Step.isOpening = (empty.accepted steps).count .closeNode) ∧
      ((∃ t, Tree.ofSteps steps = .ok t) ↔
        (empty.run steps).openNodes = [] ∧ (empty.run steps).rootClosed = true) := by
  refine ⟨fun s => isSome_fault_iff, fun s h => ?_, run_accepted empty steps,
    outcomes_accepted empty steps, exists_ofSteps_iff steps, exists_ofSteps_iff_rootClosed steps⟩
  obtain ⟨fault, hfault⟩ := Option.isSome_iff_exists.mp h
  exact step_of_fault hfault

example : empty.accepted Tree.lateNode =
    [.openNode .siddhiApp, .text "a b", .closeNode, .openNode .query, .token .identifier "c",
      .closeNode] := rfl

end Draft

end SiddhiEditor
