import JouleDB.Branch.Manager
import JouleDB.Lib.Run
import Mathlib.Logic.Relation

/-!
# What the metadata of branches keeps

The branches form a tree with main at its root, the separate head of main is the head of main, no
head moves back, and a refused call changes nothing.  A merge keeps this unless it advances main, or
advances a parent and is then refused because the source has children.
-/

namespace JouleDB.BranchManager

/-- The parent of a branch that exists. -/
def parentOf (manager : BranchManager) (name : BranchId) : Option BranchId :=
  manager.branches[name]?.bind Branch.parentId

/-- The metadata are in order. -/
structure Consistent (manager : BranchManager) : Prop where
  main : manager.branches.contains "main"
  parents : ∀ name branch, manager.branches[name]? = some branch → name ≠ "main" →
    ∃ parent, branch.parentId = some parent ∧ manager.branches.contains parent
  reaches : ∀ name, manager.branches.contains name →
    Relation.ReflTransGen (fun child parent => manager.parentOf child = some parent) name "main"
  root : ∀ branch, manager.branches["main"]? = some branch → branch.parentId = none
  head : ∀ branch, manager.branches["main"]? = some branch → manager.mainHeadLsn = branch.headLsn

/-- A call leads to metadata that are in order, moves no head back, and changes nothing where it
returns an error. -/
structure Keeps (manager : BranchManager) (call : BranchCall) : Prop where
  consistent : (manager.step call).Consistent
  heads : ∀ (name : BranchId) (branch after : Branch), manager.branches[name]? = some branch →
    (manager.step call).branches[name]? = some after → branch.headLsn ≤ after.headLsn
  refused : manager.refuses call → manager.step call = manager

/-- What a merge has to meet: where it advances its target, the target is not main and the source
can be deleted if it is to be. -/
def Allows (manager : BranchManager) : BranchCall → Prop
  | .mergeBranch source deleteAfter =>
      ∀ branch, manager.branches[source]? = some branch → ∀ target, branch.parentId = some target →
        ∀ parent, manager.branches[target]? = some parent → parent.headLsn < branch.headLsn →
          target ≠ "main" ∧ ¬(deleteAfter ∧ manager.hasChildren source)
  | _ => True

variable {manager : BranchManager} {name : BranchId} {branch : Branch}

theorem contains_iff :
    manager.branches.contains name ↔ ∃ branch, manager.branches[name]? = some branch := by
  rw [Std.ExtTreeMap.contains_eq_isSome_getElem?, Option.isSome_iff_exists]

theorem hasChildren_iff : manager.hasChildren name ↔
    ∃ (child : BranchId) (branch : Branch),
      manager.branches[child]? = some branch ∧ branch.parentId = some name := by
  simp only [hasChildren, List.any_eq_true, decide_eq_true_eq, Prod.exists,
    Std.ExtTreeMap.mem_toList_iff_getElem?_eq_some]

/-- Only the parent links decide what is reached. -/
theorem reaches_of_parentOf {after : BranchManager}
    (links : ∀ name, manager.branches.contains name → after.parentOf name = manager.parentOf name)
    (held : ∀ name parent, manager.parentOf name = some parent → manager.branches.contains parent)
    (present : manager.branches.contains name)
    (path : Relation.ReflTransGen (fun child parent => manager.parentOf child = some parent)
      name "main") :
    Relation.ReflTransGen (fun child parent => after.parentOf child = some parent) name "main" := by
  induction path using Relation.ReflTransGen.head_induction_on with
  | refl => exact .refl
  | head link path ih =>
      rename_i child parent
      have same : after.parentOf child = some parent := (links child present).trans link
      exact .head same (ih (held child parent link))

namespace Consistent

theorem parent_held (consistent : manager.Consistent) {parent : BranchId}
    (link : manager.parentOf name = some parent) : manager.branches.contains parent := by
  obtain ⟨branch, held, linked⟩ := Option.bind_eq_some_iff.mp link
  by_cases isMain : name = "main"
  · subst isMain
    rw [consistent.root branch held] at linked
    exact absurd linked (by simp)
  · obtain ⟨other, otherLink, present⟩ := consistent.parents name branch held isMain
    rw [linked] at otherLink
    rwa [Option.some.inj otherLink]

/-- A branch may be replaced by one with the same parent. -/
theorem update (consistent : manager.Consistent) {after : Branch} {mainHeadLsn : Nat}
    (held : manager.branches[name]? = some branch) (same : after.parentId = branch.parentId)
    (head : mainHeadLsn = if name = "main" then after.headLsn else manager.mainHeadLsn) :
    Consistent ⟨manager.branches.insert name after, mainHeadLsn⟩ := by
  have links : ∀ other, BranchManager.parentOf ⟨manager.branches.insert name after, mainHeadLsn⟩
      other = manager.parentOf other := by
    intro other
    unfold parentOf
    rw [Std.ExtTreeMap.getElem?_insert]
    split
    next equal =>
      have equal : name = other := by simpa using equal
      subst equal
      rw [held]
      simpa using same
    next => rfl
  have present : ∀ other, manager.branches.contains other ↔
      (manager.branches.insert name after).contains other := by
    intro other
    rw [Std.ExtTreeMap.contains_insert]
    by_cases equal : name = other
    · subst equal
      simpa using contains_iff.mpr ⟨branch, held⟩
    · simp [equal]
  constructor
  case main => exact (present "main").mp consistent.main
  case parents =>
    intro other found foundHeld notMain
    have link : manager.parentOf other = found.parentId := by
      rw [← links other]
      simp [parentOf, foundHeld]
    obtain ⟨old, oldHeld⟩ := contains_iff.mp
      ((present other).mpr (contains_iff.mpr ⟨found, foundHeld⟩))
    obtain ⟨parent, parentLink, parentHeld⟩ := consistent.parents other old oldHeld notMain
    refine ⟨parent, ?_, (present parent).mp parentHeld⟩
    rw [← link]
    simp [parentOf, oldHeld, parentLink]
  case reaches =>
    intro other otherHeld
    have old : manager.branches.contains other := (present other).mpr otherHeld
    exact reaches_of_parentOf (fun child _ => links child)
      (fun child parent link => consistent.parent_held link) old (consistent.reaches other old)
  case root =>
    intro found foundHeld
    obtain ⟨old, oldHeld⟩ := contains_iff.mp consistent.main
    have link : manager.parentOf "main" = found.parentId := by
      rw [← links "main"]
      simp [parentOf, foundHeld]
    rw [← link]
    simp [parentOf, oldHeld, consistent.root old oldHeld]
  case head =>
    intro found foundHeld
    simp only [Std.ExtTreeMap.getElem?_insert] at foundHeld
    split at foundHeld
    next equal =>
      have equal : name = "main" := by simpa using equal
      rw [head, if_pos equal, Option.some.inj foundHeld]
    next distinct =>
      have distinct : name ≠ "main" := by simpa using distinct
      rw [head, if_neg distinct]
      exact consistent.head found foundHeld

/-- A new branch may be forked from one that exists. -/
theorem insert (consistent : manager.Consistent) {parent : BranchId}
    (fresh : ¬manager.branches.contains name) (link : branch.parentId = some parent)
    (held : manager.branches.contains parent) :
    Consistent { manager with branches := manager.branches.insert name branch } := by
  have apart : ∀ other, manager.branches.contains other → name ≠ other := by
    rintro other present rfl
    exact fresh present
  have same : ∀ other, manager.branches.contains other →
      (manager.branches.insert name branch)[other]? = manager.branches[other]? := by
    intro other present
    simp [Std.ExtTreeMap.getElem?_insert, apart other present]
  have links : ∀ other, manager.branches.contains other →
      BranchManager.parentOf { manager with branches := manager.branches.insert name branch }
        other = manager.parentOf other := by
    intro other present
    unfold parentOf
    rw [same other present]
  have grows : ∀ other, manager.branches.contains other →
      (manager.branches.insert name branch).contains other := by
    intro other present
    simp [Std.ExtTreeMap.contains_insert, present]
  have path : ∀ other, manager.branches.contains other → Relation.ReflTransGen
      (fun child parent => BranchManager.parentOf
        { manager with branches := manager.branches.insert name branch } child = some parent)
      other "main" := by
    intro other present
    exact reaches_of_parentOf links (fun child parent link => consistent.parent_held link) present
      (consistent.reaches other present)
  constructor
  case main => exact grows "main" consistent.main
  case parents =>
    intro other found foundHeld notMain
    by_cases equal : name = other
    · subst equal
      rw [Std.ExtTreeMap.getElem?_insert_self] at foundHeld
      exact ⟨parent, Option.some.inj foundHeld ▸ link, grows parent held⟩
    · rw [Std.ExtTreeMap.getElem?_insert, if_neg (by simpa using equal)] at foundHeld
      obtain ⟨above, aboveLink, aboveHeld⟩ := consistent.parents other found foundHeld notMain
      exact ⟨above, aboveLink, grows above aboveHeld⟩
  case reaches =>
    intro other present
    by_cases equal : name = other
    · subst equal
      have link : BranchManager.parentOf
          { manager with branches := manager.branches.insert name branch } name = some parent := by
        simp [parentOf, link]
      exact .head link (path parent held)
    · rw [Std.ExtTreeMap.contains_insert] at present
      exact path other (by simpa [equal] using present)
  case root =>
    intro found foundHeld
    rw [same "main" consistent.main] at foundHeld
    exact consistent.root found foundHeld
  case head =>
    intro found foundHeld
    rw [same "main" consistent.main] at foundHeld
    exact consistent.head found foundHeld

/-- A branch without children, other than main, may be deleted. -/
theorem erase (consistent : manager.Consistent) (notMain : name ≠ "main")
    (childless : ¬manager.hasChildren name) :
    Consistent { manager with branches := manager.branches.erase name } := by
  have same : ∀ other, other ≠ name →
      (manager.branches.erase name)[other]? = manager.branches[other]? := by
    intro other distinct
    simp [Std.ExtTreeMap.getElem?_erase, distinct.symm]
  have notParent : ∀ child parent, manager.parentOf child = some parent → parent ≠ name := by
    rintro child parent link rfl
    obtain ⟨found, held, linked⟩ := Option.bind_eq_some_iff.mp link
    exact childless (hasChildren_iff.mpr ⟨child, found, held, linked⟩)
  have kept : ∀ other, other ≠ name → manager.branches.contains other →
      (manager.branches.erase name).contains other := by
    intro other distinct present
    simp [Std.ExtTreeMap.contains_erase, distinct.symm, present]
  constructor
  case main => exact kept "main" notMain.symm consistent.main
  case parents =>
    intro other found foundHeld otherNotMain
    by_cases equal : other = name
    · subst equal
      simp at foundHeld
    · rw [same other equal] at foundHeld
      obtain ⟨parent, link, held⟩ := consistent.parents other found foundHeld otherNotMain
      have linked : manager.parentOf other = some parent := by simp [parentOf, foundHeld, link]
      exact ⟨parent, link, kept parent (notParent other parent linked) held⟩
  case reaches =>
    intro other present
    have distinct : other ≠ name := by
      rintro rfl
      simp at present
    have held : manager.branches.contains other := by
      simpa [Std.ExtTreeMap.contains_erase, distinct.symm] using present
    -- No link leads into the deleted branch, so the path to main avoids it.
    have path := consistent.reaches other held
    clear held present
    induction path using Relation.ReflTransGen.head_induction_on with
    | refl => exact .refl
    | head link path ih =>
        rename_i child parent
        refine .head ?_ (ih (notParent child parent link))
        unfold parentOf
        rw [same child distinct]
        exact link
  case root =>
    intro found foundHeld
    rw [same "main" notMain.symm] at foundHeld
    exact consistent.root found foundHeld
  case head =>
    intro found foundHeld
    rw [same "main" notMain.symm] at foundHeld
    exact consistent.head found foundHeld

end Consistent

theorem consistent_new (mainHeadLsn now : Nat) : (new mainHeadLsn now).Consistent := by
  have only : ∀ name (branch : Branch), (new mainHeadLsn now).branches[name]? = some branch →
      name = "main" ∧ branch.parentId = none ∧ branch.headLsn = mainHeadLsn := by
    intro name branch held
    rw [new, Std.ExtTreeMap.getElem?_insert] at held
    split at held
    next equal =>
      cases held
      have equal : "main" = name := by simpa using equal
      exact ⟨equal.symm, rfl, rfl⟩
    next => simp at held
  constructor
  case main => simp [new]
  case parents =>
    intro name branch held notMain
    exact absurd (only name branch held).1 notMain
  case reaches =>
    intro name present
    obtain ⟨branch, held⟩ := contains_iff.mp present
    rw [(only name branch held).1]
  case root =>
    intro branch held
    exact (only "main" branch held).2.1
  case head =>
    intro branch held
    exact (only "main" branch held).2.2.symm

/-- A call that changes nothing keeps the metadata in order. -/
theorem keeps_of_unchanged {call : BranchCall} (consistent : manager.Consistent)
    (same : manager.step call = manager) : manager.Keeps call where
  consistent := same.symm ▸ consistent
  heads := by
    intro name branch after held heldAfter
    rw [same, held] at heldAfter
    rw [Option.some.inj heldAfter]
  refused := fun _ => same

/-- Heads do not move back where only one branch changes, and not back. -/
theorem heads_insert {after : Branch}
    (forward : ∀ branch, manager.branches[name]? = some branch → branch.headLsn ≤ after.headLsn)
    {other : BranchId} {old new : Branch} (held : manager.branches[other]? = some old)
    (heldAfter : (manager.branches.insert name after)[other]? = some new) :
    old.headLsn ≤ new.headLsn := by
  rw [Std.ExtTreeMap.getElem?_insert] at heldAfter
  split at heldAfter
  next equal =>
    have equal : name = other := by simpa using equal
    subst equal
    cases heldAfter
    exact forward old held
  next =>
    rw [held] at heldAfter
    rw [Option.some.inj heldAfter]

theorem heads_erase {other : BranchId} {old new : Branch}
    (held : manager.branches[other]? = some old)
    (heldAfter : (manager.branches.erase name)[other]? = some new) : new = old := by
  rw [Std.ExtTreeMap.getElem?_erase] at heldAfter
  split at heldAfter
  · exact absurd heldAfter (by simp)
  · rw [held] at heldAfter
    exact (Option.some.inj heldAfter).symm

theorem keeps_createBranch (consistent : manager.Consistent) (request : CreateBranchRequest)
    (now : Nat) : manager.Keeps (.createBranch request now) := by
  by_cases empty : request.name = ""
  · exact keeps_of_unchanged consistent (by simp [step, createBranch, empty])
  by_cases exist : manager.branches.contains request.name
  · exact keeps_of_unchanged consistent (by simp [step, createBranch, empty, exist])
  cases found : manager.branches[request.parent.getD "main"]? with
  | none => exact keeps_of_unchanged consistent (by simp [step, createBranch, empty, exist, found])
  | some parent =>
      constructor
      case consistent =>
        simp only [step, createBranch, empty, exist, found, if_false]
        exact consistent.insert exist rfl (contains_iff.mpr ⟨parent, found⟩)
      case heads =>
        intro name branch after held heldAfter
        simp only [step, createBranch, empty, exist, found, if_false] at heldAfter
        apply heads_insert _ held heldAfter
        intro old oldHeld
        exact absurd (contains_iff.mpr ⟨old, oldHeld⟩) exist
      case refused =>
        intro refused
        simp [refuses, createBranch, empty, exist, found, Except.isOk, Except.toBool] at refused

theorem keeps_deleteBranch (consistent : manager.Consistent) (name : BranchId) :
    manager.Keeps (.deleteBranch name) := by
  by_cases isMain : name = "main"
  · exact keeps_of_unchanged consistent (by simp [step, deleteBranch, isMain])
  by_cases children : manager.hasChildren name
  · exact keeps_of_unchanged consistent (by simp [step, deleteBranch, isMain, children])
  cases found : manager.branches[name]? with
  | none =>
      exact keeps_of_unchanged consistent (by simp [step, deleteBranch, isMain, children, found])
  | some branch =>
      constructor
      case consistent =>
        simp only [step, deleteBranch, isMain, children, found, if_false]
        exact consistent.erase isMain children
      case heads =>
        intro other old new held heldAfter
        simp only [step, deleteBranch, isMain, children, found, if_false] at heldAfter
        rw [heads_erase held heldAfter]
      case refused =>
        intro refused
        simp [refuses, deleteBranch, isMain, children, found, Except.isOk, Except.toBool] at refused

theorem keeps_advanceHead (consistent : manager.Consistent) (name : BranchId) (newLsn : Nat) :
    manager.Keeps (.advanceHead name newLsn) := by
  cases found : manager.branches[name]? with
  | none => exact keeps_of_unchanged consistent (by simp [step, advanceHead, found])
  | some branch =>
      by_cases forward : newLsn > branch.headLsn
      · constructor
        case consistent =>
          simp only [step, advanceHead, found, forward, if_true]
          exact consistent.update found rfl rfl
        case heads =>
          intro other old new held heldAfter
          simp only [step, advanceHead, found, forward, if_true] at heldAfter
          apply heads_insert _ held heldAfter
          intro old oldHeld
          rw [found] at oldHeld
          cases oldHeld
          exact forward.le
        case refused =>
          intro refused
          simp [refuses, advanceHead, found, forward, Except.isOk, Except.toBool] at refused
      · exact keeps_of_unchanged consistent (by simp [step, advanceHead, found, forward])

/-- Counting energy moves neither the branch nor its head. -/
theorem recordEnergy_snd (branch : Branch) (consumed : UInt64) :
    (branch.recordEnergy consumed).2 =
      { branch with energySpent := branch.energySpent + consumed } := by
  dsimp only [Branch.recordEnergy]
  split
  · split <;> rfl
  · rfl

theorem keeps_recordEnergy (consistent : manager.Consistent) (name : BranchId)
    (consumed : UInt64) : manager.Keeps (.recordEnergy name consumed) := by
  cases found : manager.branches[name]? with
  | none => exact keeps_of_unchanged consistent (by simp [step, recordEnergy, found])
  | some branch =>
      constructor
      case consistent =>
        simp only [step, recordEnergy, found, recordEnergy_snd]
        refine consistent.update found ?_ ?_
        · rfl
        · split
          next isMain =>
            subst isMain
            exact consistent.head branch found
          next => rfl
      case heads =>
        intro other old new held heldAfter
        simp only [step, recordEnergy, found, recordEnergy_snd] at heldAfter
        apply heads_insert _ held heldAfter
        intro old oldHeld
        rw [found] at oldHeld
        cases oldHeld
        exact le_rfl
      case refused => exact fun refused => absurd refused (by simp [refuses])

section Merge

variable {source parent : Branch} {sourceName target : BranchId} {deleteAfter : Bool}

/-- The manager after a merge has advanced its target. -/
def advanced (manager : BranchManager) (source parent : Branch) (target : BranchId) :
    BranchManager :=
  let after : Branch := { parent with headLsn := max source.headLsn parent.headLsn }
  { manager with branches := manager.branches.insert target after }

/-- Advancing the target changes no parent link. -/
theorem hasChildren_advanced (name : BranchId) (source : Branch)
    (held : manager.branches[target]? = some parent) :
    (manager.advanced source parent target).hasChildren name ↔ manager.hasChildren name := by
  rw [hasChildren_iff, hasChildren_iff]
  constructor
  · rintro ⟨child, branch, found, link⟩
    by_cases equal : target = child
    · subst equal
      rw [advanced, Std.ExtTreeMap.getElem?_insert_self] at found
      cases found
      exact ⟨target, parent, held, link⟩
    · rw [advanced, Std.ExtTreeMap.getElem?_insert, if_neg (by simpa using equal)] at found
      exact ⟨child, branch, found, link⟩
  · rintro ⟨child, branch, found, link⟩
    by_cases equal : target = child
    · subst equal
      rw [held] at found
      cases found
      exact ⟨target, _, Std.ExtTreeMap.getElem?_insert_self, link⟩
    · refine ⟨child, branch, ?_, link⟩
      rw [advanced, Std.ExtTreeMap.getElem?_insert, if_neg (by simpa using equal)]
      exact found

variable (held : manager.branches[sourceName]? = some source)
  (link : source.parentId = some target) (heldParent : manager.branches[target]? = some parent)

include held link heldParent

/-- The state after a merge whose source and target exist. -/
theorem step_mergeBranch (deleteAfter : Bool) :
    manager.step (.mergeBranch sourceName deleteAfter) =
    if deleteAfter ∧ ¬manager.hasChildren sourceName then
      { manager.advanced source parent target with
        branches := (manager.advanced source parent target).branches.erase sourceName }
    else manager.advanced source parent target := by
  simp only [step, mergeBranch, held, link, heldParent]
  have same := hasChildren_advanced sourceName source heldParent
  unfold advanced at same ⊢
  cases deleteAfter with
  | false => simp
  | true =>
      by_cases children : manager.hasChildren sourceName
      · simp [same.mpr children, children]
      · have childless := mt same.mp children
        simp [childless, children]

theorem refuses_mergeBranch : manager.refuses (.mergeBranch sourceName deleteAfter) ↔
    deleteAfter ∧ manager.hasChildren sourceName := by
  simp only [refuses, mergeBranch, held, link, heldParent]
  have same := hasChildren_advanced sourceName source heldParent
  unfold advanced at same
  cases deleteAfter with
  | false => simp [Except.isOk, Except.toBool]
  | true =>
      by_cases children : manager.hasChildren sourceName
      · simp [same.mpr children, children, Except.isOk, Except.toBool]
      · have childless := mt same.mp children
        simp [childless, children, Except.isOk, Except.toBool]

/-- A merge keeps the metadata in order exactly if it is allowed. -/
theorem keeps_mergeBranch_iff (consistent : manager.Consistent) :
    manager.Keeps (.mergeBranch sourceName deleteAfter) ↔
      (parent.headLsn < source.headLsn →
        target ≠ "main" ∧ ¬(deleteAfter ∧ manager.hasChildren sourceName)) := by
  have sourceNotMain : sourceName ≠ "main" := by
    rintro rfl
    rw [consistent.root source held] at link
    exact absurd link (by simp)
  have stepped := step_mergeBranch held link heldParent deleteAfter
  constructor
  · intro keeps ahead
    constructor
    · rintro rfl
      -- The head of main has moved and its copy has not.
      have before : manager.mainHeadLsn = parent.headLsn := consistent.head parent heldParent
      have after := keeps.consistent.head { parent with
        headLsn := max source.headLsn parent.headLsn }
      rw [stepped] at after
      split at after
      all_goals
        simp [advanced, sourceNotMain] at after
        omega
    · intro refused
      have unchanged := keeps.refused ((refuses_mergeBranch held link heldParent).mpr refused)
      rw [stepped, if_neg (fun deletes => deletes.2 refused.2)] at unchanged
      have moved : manager.branches[target]? = some { parent with
          headLsn := max source.headLsn parent.headLsn } := by
        rw [← unchanged]
        exact Std.ExtTreeMap.getElem?_insert_self
      rw [heldParent] at moved
      have same := congrArg Branch.headLsn (Option.some.inj moved)
      simp only at same
      omega
  · intro allowed
    have inOrder : (manager.advanced source parent target).Consistent := by
      refine consistent.update heldParent ?_ ?_
      · rfl
      · split
        next isMain =>
          have behind : source.headLsn ≤ parent.headLsn :=
            not_lt.mp fun ahead => (allowed ahead).1 isMain
          subst isMain
          simp only [max_eq_right behind]
          exact consistent.head parent heldParent
        next => rfl
    have forward : ∀ branch, manager.branches[target]? = some branch →
        branch.headLsn ≤ max source.headLsn parent.headLsn := by
      intro branch found
      rw [heldParent] at found
      cases found
      exact le_max_right _ _
    constructor
    case consistent =>
      rw [stepped]
      split
      next deletes =>
        apply inOrder.erase sourceNotMain
        exact mt (hasChildren_advanced sourceName source heldParent).mp deletes.2
      next => exact inOrder
    case heads =>
      intro other old new otherHeld otherAfter
      rw [stepped] at otherAfter
      split at otherAfter
      next =>
        rw [Std.ExtTreeMap.getElem?_erase] at otherAfter
        split at otherAfter
        · exact absurd otherAfter (by simp)
        · exact heads_insert forward otherHeld otherAfter
      next => exact heads_insert forward otherHeld otherAfter
    case refused =>
      intro refused
      have refused := (refuses_mergeBranch held link heldParent).mp refused
      have behind : source.headLsn ≤ parent.headLsn :=
        not_lt.mp fun ahead => (allowed ahead).2 refused
      rw [stepped, if_neg (fun deletes => deletes.2 refused.2)]
      simp only [advanced, max_eq_right behind]
      have same : manager.branches.insert target parent = manager.branches := by
        apply Std.ExtTreeMap.ext_getElem?
        intro other
        rw [Std.ExtTreeMap.getElem?_insert]
        split
        next equal =>
          have equal : target = other := by simpa using equal
          rw [← equal, heldParent]
        next => rfl
      rw [same]

end Merge

/-- Every call but a merge keeps the metadata in order; a merge does where it is allowed. -/
theorem keeps_iff_allows (consistent : manager.Consistent) (call : BranchCall) :
    manager.Keeps call ↔ manager.Allows call := by
  cases call with
  | createBranch request now => exact iff_of_true (keeps_createBranch consistent request now) trivial
  | deleteBranch name => exact iff_of_true (keeps_deleteBranch consistent name) trivial
  | advanceHead name newLsn => exact iff_of_true (keeps_advanceHead consistent name newLsn) trivial
  | recordEnergy name consumed =>
      exact iff_of_true (keeps_recordEnergy consistent name consumed) trivial
  | mergeBranch source deleteAfter =>
      unfold Allows
      cases held : manager.branches[source]? with
      | none =>
          refine iff_of_true (keeps_of_unchanged consistent ?_) (by simp [held])
          simp [step, mergeBranch, held]
      | some branch =>
          cases link : branch.parentId with
          | none =>
              refine iff_of_true (keeps_of_unchanged consistent ?_) (by simp [held, link])
              simp [step, mergeBranch, held, link]
          | some target =>
              cases heldParent : manager.branches[target]? with
              | none =>
                  refine iff_of_true (keeps_of_unchanged consistent ?_)
                    (by simp [held, link, heldParent])
                  simp [step, mergeBranch, held, link, heldParent]
              | some parent =>
                  rw [keeps_mergeBranch_iff held link heldParent consistent]
                  simp [held, link, heldParent]

/-- In a run from metadata in order every step keeps them in order exactly if every merge is
allowed in the state in which it is called. -/
theorem allMeet_keeps_iff (consistent : manager.Consistent) (calls : List BranchCall) :
    AllMeet step Keeps manager calls ↔ AllMeet step Allows manager calls := by
  induction calls generalizing manager with
  | nil => rfl
  | cons call calls ih =>
      unfold AllMeet
      rw [keeps_iff_allows consistent call]
      apply and_congr_right
      intro allowed
      exact ih ((keeps_iff_allows consistent call).mpr allowed).consistent

/-- The metadata of a new manager are in order, and every call of a run keeps them in order, moves
no head back and is all or nothing, exactly if every merge of the run is allowed. -/
theorem keeps_run_iff (mainHeadLsn now : Nat) (calls : List BranchCall) :
    ((new mainHeadLsn now).Consistent ∧ AllMeet step Keeps (new mainHeadLsn now) calls) ↔
      AllMeet step Allows (new mainHeadLsn now) calls := by
  rw [allMeet_keeps_iff (consistent_new mainHeadLsn now)]
  exact and_iff_right (consistent_new mainHeadLsn now)

/-- A merge into main leaves the separate head of main behind. -/
theorem not_keeps_mergeIntoMain :
    ¬AllMeet step Keeps (new 100 0)
      [.createBranch ⟨"feature", none, none, none, none, []⟩ 0, .advanceHead "feature" 150,
        .mergeBranch "feature" true] := by
  rintro ⟨-, -, keeps, -⟩
  have stale := keeps.consistent.head ⟨"main", 0, 150, none, 0, some "Default branch", none, 0,
    false, []⟩ (by decide +kernel)
  exact absurd stale (by decide +kernel)

end JouleDB.BranchManager
