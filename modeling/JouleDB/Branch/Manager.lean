import JouleDB.Lib.FiniteMap

/-!
# The branch manager

Branches are metadata only: a name, the positions in the log at which the branch was forked and at
which it stands, and its parent.  A call takes the lock on the table of branches for its whole
length, so calls come one after the other.  `BranchInfo` copies every field of a branch, and stands
here as the branch itself.
-/

namespace JouleDB

abbrev BranchId := String

/-- Metadata of a branch. -/
structure Branch where
  name : String
  rootLsn : Nat
  headLsn : Nat
  parentId : Option BranchId
  createdAt : Nat
  description : Option String
  energyBudget : Option UInt64
  energySpent : UInt64
  readOnly : Bool
  tags : List String
  deriving DecidableEq

/-- Why a call is refused. -/
inductive BranchError where
  | notFound (name : String)
  | alreadyExists (name : String)
  | cannotDeleteMain
  | energyBudgetExhausted (spent budget : UInt64)
  | storage (message : String)
  | parentNotFound (name : String)
  | invalidName (message : String)
  deriving DecidableEq

/-- A request for a new branch. -/
structure CreateBranchRequest where
  name : String
  parent : Option BranchId
  atLsn : Option Nat
  energyBudget : Option UInt64
  description : Option String
  tags : List String

/-- What a merge reports. -/
structure MergeResult where
  sourceBranch : String
  targetBranch : String
  pagesMerged : Nat
  energyConsumed : UInt64
  newHeadLsn : Nat
  sourceDeleted : Bool
  deriving DecidableEq

/-- Count consumed energy.  It is counted even where it exceeds the budget. -/
def Branch.recordEnergy (branch : Branch) (consumed : UInt64) : Except BranchError UInt64 × Branch :=
  let total := branch.energySpent + consumed
  let recorded := { branch with energySpent := total }
  match branch.energyBudget with
  | some budget =>
      if total > budget then (.error (.energyBudgetExhausted total budget), recorded)
      else (.ok total, recorded)
  | none => (.ok total, recorded)

/-- All branches, and the head of the main branch once more. -/
structure BranchManager where
  branches : FiniteMap BranchId Branch
  mainHeadLsn : Nat

namespace BranchManager

/-- A manager with its main branch. -/
def new (mainHeadLsn now : Nat) : BranchManager where
  branches := (∅ : FiniteMap BranchId Branch).insert "main"
    { name := "main"
      rootLsn := 0
      headLsn := mainHeadLsn
      parentId := none
      createdAt := now
      description := some "Default branch"
      energyBudget := none
      energySpent := 0
      readOnly := false
      tags := [] }
  mainHeadLsn := mainHeadLsn

/-- Some branch was forked from this one. -/
def hasChildren (manager : BranchManager) (name : BranchId) : Bool :=
  manager.branches.toList.any fun entry => entry.2.parentId = some name

/-- Fork a branch from its parent. -/
def createBranch (manager : BranchManager) (request : CreateBranchRequest) (now : Nat) :
    Except BranchError Branch × BranchManager :=
  if request.name = "" then
    (.error (.invalidName "Branch name cannot be empty"), manager)
  else if manager.branches.contains request.name then
    (.error (.alreadyExists request.name), manager)
  else
    let parentName := request.parent.getD "main"
    match manager.branches[parentName]? with
    | none => (.error (.parentNotFound parentName), manager)
    | some parent =>
        let forkLsn := request.atLsn.getD parent.headLsn
        let branch : Branch :=
          { name := request.name
            rootLsn := forkLsn
            headLsn := forkLsn
            parentId := some parentName
            createdAt := now
            description := request.description
            energyBudget := request.energyBudget
            energySpent := 0
            readOnly := false
            tags := request.tags }
        (.ok branch, { manager with branches := manager.branches.insert request.name branch })

/-- Delete a branch that is not main and has no children. -/
def deleteBranch (manager : BranchManager) (name : BranchId) :
    Except BranchError Branch × BranchManager :=
  if name = "main" then (.error .cannotDeleteMain, manager)
  else if manager.hasChildren name then
    (.error (.storage ("branch '" ++ name ++ "' has child branches — delete them first")), manager)
  else
    match manager.branches[name]? with
    | none => (.error (.notFound name), manager)
    | some branch => (.ok branch, { manager with branches := manager.branches.erase name })

/-- Count energy that was consumed on a branch. -/
def recordEnergy (manager : BranchManager) (name : BranchId) (consumed : UInt64) :
    Except BranchError UInt64 × BranchManager :=
  match manager.branches[name]? with
  | none => (.error (.notFound name), manager)
  | some branch =>
      ((branch.recordEnergy consumed).1,
        { manager with branches := manager.branches.insert name (branch.recordEnergy consumed).2 })

/-- Advance the head of a branch, never back. -/
def advanceHead (manager : BranchManager) (name : BranchId) (newLsn : Nat) :
    Except BranchError Unit × BranchManager :=
  match manager.branches[name]? with
  | none => (.error (.notFound name), manager)
  | some branch =>
      if newLsn > branch.headLsn then
        (.ok (),
          { branches := manager.branches.insert name { branch with headLsn := newLsn }
            mainHeadLsn := if name = "main" then newLsn else manager.mainHeadLsn })
      else (.ok (), manager)

/-- Merge a branch into its parent by advancing the head of the parent. -/
def mergeBranch (manager : BranchManager) (sourceName : BranchId) (deleteAfter : Bool) :
    Except BranchError MergeResult × BranchManager :=
  match manager.branches[sourceName]? with
  | none => (.error (.notFound sourceName), manager)
  | some source =>
      match source.parentId with
      | none => (.error (.storage "cannot merge main into itself"), manager)
      | some parentName =>
          match manager.branches[parentName]? with
          | none => (.error (.parentNotFound parentName), manager)
          | some parent =>
              let newHead := max source.headLsn parent.headLsn
              -- The parent is advanced here, before the source is known to be deletable, and the
              -- separate head of main is not.
              let merged : BranchManager :=
                { manager with
                  branches := manager.branches.insert parentName { parent with headLsn := newHead } }
              let result : MergeResult :=
                { sourceBranch := sourceName
                  targetBranch := parentName
                  pagesMerged := 0
                  energyConsumed := source.energySpent
                  newHeadLsn := newHead
                  sourceDeleted := deleteAfter }
              if deleteAfter then
                if merged.hasChildren sourceName then
                  (.error (.storage ("cannot delete branch '" ++ sourceName ++
                    "' after merge — it has child branches")), merged)
                else (.ok result, { merged with branches := merged.branches.erase sourceName })
              else (.ok result, merged)

end BranchManager

/-- A call on the manager. -/
inductive BranchCall where
  | createBranch (request : CreateBranchRequest) (now : Nat)
  | deleteBranch (name : BranchId)
  | advanceHead (name : BranchId) (newLsn : Nat)
  | mergeBranch (source : BranchId) (deleteAfter : Bool)
  | recordEnergy (name : BranchId) (consumed : UInt64)

namespace BranchManager

/-- The state after a call. -/
def step (manager : BranchManager) : BranchCall → BranchManager
  | .createBranch request now => (manager.createBranch request now).2
  | .deleteBranch name => (manager.deleteBranch name).2
  | .advanceHead name newLsn => (manager.advanceHead name newLsn).2
  | .mergeBranch source deleteAfter => (manager.mergeBranch source deleteAfter).2
  | .recordEnergy name consumed => (manager.recordEnergy name consumed).2

/-- A call on the metadata returns an error. -/
def refuses (manager : BranchManager) : BranchCall → Bool
  | .createBranch request now => !(manager.createBranch request now).1.isOk
  | .deleteBranch name => !(manager.deleteBranch name).1.isOk
  | .advanceHead name newLsn => !(manager.advanceHead name newLsn).1.isOk
  | .mergeBranch source deleteAfter => !(manager.mergeBranch source deleteAfter).1.isOk
  | .recordEnergy _ _ => false

end BranchManager

end JouleDB
