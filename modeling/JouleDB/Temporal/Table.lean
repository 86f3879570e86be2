import Mathlib.Algebra.Order.Ring.Int
import JouleDB.Lib.FiniteMap

/-!
# Temporal tables

A temporal table keeps all versions of its rows, each with the interval in which it was current.
Asked for an instant, it answers with the rows that a plain table would have had then, whatever
was done later, as long as no version that was current at the instant has been purged.
-/

namespace JouleDB.Temporal

/-- The end of the interval of a row that is currently active. -/
def timestampMax : Int := 2 ^ 63 - 1

/-- A validity interval. -/
structure Validity where
  validFrom : Int
  validTo : Int
  deriving DecidableEq

namespace Validity

def activeFrom (start : Int) : Validity := ⟨start, timestampMax⟩

def isActive (validity : Validity) : Bool := validity.validTo = timestampMax

def contains (validity : Validity) (timestamp : Int) : Bool :=
  validity.validFrom ≤ timestamp && timestamp < validity.validTo

def overlaps (validity : Validity) (start stop : Int) : Bool :=
  validity.validFrom < stop && start < validity.validTo

def closeAt (validity : Validity) (timestamp : Int) : Validity :=
  { validity with validTo := timestamp }

end Validity

/-- What a query asks for. -/
inductive TemporalClause where
  | asOf (timestamp : Int)
  | between (start stop : Int)
  | all

/-- A version of a row. -/
structure VersionedRow (δ : Type) where
  rowId : String
  validity : Validity
  data : δ
  deriving DecidableEq

/-- A table with the history of its rows; retention is in microseconds. -/
structure TemporalTable (δ : Type) where
  rows : FiniteMap String (List (VersionedRow δ))
  retentionUs : Int

/-- Close the first active version. -/
def closeActive {δ : Type} (now : Int) : List (VersionedRow δ) → Option (List (VersionedRow δ))
  | [] => none
  | version :: versions =>
      if version.validity.isActive then
        some ({ version with validity := version.validity.closeAt now } :: versions)
      else
        (closeActive now versions).map (version :: ·)

namespace TemporalTable

variable {δ : Type}

def withRetention (retentionUs : Int) : TemporalTable δ := ⟨∅, retentionUs⟩

/-- Insert a row: open its first version, or one after a deletion. -/
def insert (table : TemporalTable δ) (rowId : String) (data : δ) (now : Int) :
    Except String Unit × TemporalTable δ :=
  -- the empty entry that is made for a new row never stays behind a refusal
  let versions := table.rows[rowId]?.getD []
  if versions.any (·.validity.isActive) then
    (.error s!"row {rowId} already has an active version — update or delete first", table)
  else
    (.ok (), { table with
      rows := table.rows.insert rowId (versions ++ [⟨rowId, .activeFrom now, data⟩]) })

/-- Close the active version of a row and go on with what then is in its place. -/
def replaceActive (table : TemporalTable δ) (rowId : String) (now : Int)
    (opened : List (VersionedRow δ)) : Except String Unit × TemporalTable δ :=
  match table.rows[rowId]? with
  | none => (.error s!"row {rowId} not found", table)
  | some versions =>
      match closeActive now versions with
      | none => (.error s!"row {rowId} has no active version", table)
      | some closed =>
          (.ok (), { table with rows := table.rows.insert rowId (closed ++ opened) })

def update (table : TemporalTable δ) (rowId : String) (data : δ) (now : Int) :
    Except String Unit × TemporalTable δ :=
  table.replaceActive rowId now [⟨rowId, .activeFrom now, data⟩]

def delete (table : TemporalTable δ) (rowId : String) (now : Int) :
    Except String Unit × TemporalTable δ :=
  table.replaceActive rowId now []

/-- All versions whose validity meets a test; the order of the rows means nothing. -/
def scan (table : TemporalTable δ) (test : Validity → Bool) : List (VersionedRow δ) :=
  table.rows.toList.flatMap fun entry => entry.2.filter fun version => test version.validity

def scanCurrent (table : TemporalTable δ) : List (VersionedRow δ) := table.scan Validity.isActive

def scanTemporal (table : TemporalTable δ) : TemporalClause → List (VersionedRow δ)
  | .asOf timestamp => table.scan (·.contains timestamp)
  | .between start stop => table.scan (·.overlaps start stop)
  | .all => table.scan fun _ => true

/-- Versions that were closed up to this instant are purged; the subtraction wraps. -/
def cutoff (retentionUs now : Int) : Int := (now - retentionUs).bmod (2 ^ 64)

/-- What the purge leaves of the versions of a row. -/
def retained (cutoff : Int) (versions : List (VersionedRow δ)) : List (VersionedRow δ) :=
  versions.filter fun version => version.validity.isActive || cutoff < version.validity.validTo

/-- Purge old versions and count them. -/
def gc (table : TemporalTable δ) (now : Int) : Nat × TemporalTable δ :=
  let kept := retained (cutoff table.retentionUs now)
  ((table.rows.toList.map fun entry => entry.2.length - (kept entry.2).length).sum,
    { table with
      rows := table.rows.filterMap fun _ versions =>
        if (kept versions).isEmpty then none else some (kept versions) })

/-- The calls that change a table. -/
inductive Call (δ : Type) where
  | insert (rowId : String) (data : δ) (now : Int)
  | update (rowId : String) (data : δ) (now : Int)
  | delete (rowId : String) (now : Int)
  | gc (now : Int)

/-- The instant at which a call is made. -/
def Call.now : Call δ → Int
  | .insert _ _ now | .update _ _ now | .delete _ now | .gc now => now

def step (table : TemporalTable δ) : Call δ → TemporalTable δ
  | .insert rowId data now => (table.insert rowId data now).2
  | .update rowId data now => (table.update rowId data now).2
  | .delete rowId now => (table.delete rowId now).2
  | .gc now => (table.gc now).2

/-- What a call makes of a row in a table that has no history. -/
def replay (rowId : String) (current : Option δ) : Call δ → Option δ
  | .insert inserted data _ => if rowId = inserted then some (current.getD data) else current
  | .update updated data _ => if rowId = updated then current.map fun _ => data else current
  | .delete deleted _ => if rowId = deleted then none else current
  | .gc _ => current

/-- The versions of a row. -/
def versions (table : TemporalTable δ) (rowId : String) : List (VersionedRow δ) :=
  table.rows[rowId]?.getD []

/-- The versions of a row when the active one, if there is one, has been replaced. -/
def replaced (now : Int) (versions opened : List (VersionedRow δ)) : List (VersionedRow δ) :=
  ((closeActive now versions).map (· ++ opened)).getD versions

/-- What a call makes of the versions of a row. -/
def changed (retentionUs : Int) (call : Call δ) (rowId : String)
    (versions : List (VersionedRow δ)) : List (VersionedRow δ) :=
  match call with
  | .insert inserted data now =>
      if rowId = inserted ∧ versions.any (·.validity.isActive) = false then
        versions ++ [⟨rowId, .activeFrom now, data⟩]
      else
        versions
  | .update updated data now =>
      if rowId = updated then replaced now versions [⟨rowId, .activeFrom now, data⟩] else versions
  | .delete deleted now => if rowId = deleted then replaced now versions [] else versions
  | .gc now => retained (cutoff retentionUs now) versions

theorem versions_set (table : TemporalTable δ) (rowId other : String)
    (versions : List (VersionedRow δ)) :
    TemporalTable.versions { table with rows := table.rows.insert other versions } rowId =
      if rowId = other then versions else table.versions rowId := by
  by_cases same : rowId = other
  · simp [TemporalTable.versions, same]
  · simp [TemporalTable.versions, same, Std.ExtTreeMap.getElem?_insert, Ne.symm same]

theorem versions_replaceActive (table : TemporalTable δ) (rowId other : String) (now : Int)
    (opened : List (VersionedRow δ)) :
    (table.replaceActive other now opened).2.versions rowId =
      if rowId = other then replaced now (table.versions rowId) opened
      else table.versions rowId := by
  by_cases same : rowId = other
  · subst same
    rw [replaceActive, if_pos rfl, replaced, versions]
    cases found : table.rows[rowId]? with
    | none => simp [closeActive, versions, found]
    | some old =>
        dsimp only
        rw [versions, found, Option.getD_some]
        cases closeActive now old <;> simp [found]
  · rw [replaceActive, if_neg same]
    split
    next => rfl
    next =>
      split
      next => rfl
      next => rw [versions_set, if_neg same]

theorem versions_step (table : TemporalTable δ) (call : Call δ) (rowId : String) :
    (table.step call).versions rowId =
      changed table.retentionUs call rowId (table.versions rowId) := by
  cases call with
  | insert inserted data now =>
      rw [step, insert, changed, ← versions]
      split
      next active => rw [if_neg (by rintro ⟨rfl, inactive⟩; simp [inactive] at active)]
      next inactive =>
        rw [versions_set]
        by_cases same : rowId = inserted
        · subst same
          rw [if_pos rfl, if_pos ⟨rfl, by simpa using inactive⟩]
        · simp [same]
  | update updated data now =>
      rw [step, update, versions_replaceActive, changed]
      split
      next same => rw [same]
      next => rfl
  | delete deleted now => exact versions_replaceActive table rowId deleted now []
  | gc now =>
      rw [step, gc, changed, versions, versions, Std.ExtTreeMap.getElem?_filterMap']
      cases table.rows[rowId]? with
      | none => rfl
      | some old =>
          simp only [Option.bind_some, Option.getD_some]
          split
          next empty => exact (List.isEmpty_iff.mp empty).symm
          next => rfl

section Instant

variable {timestamp retentionUs : Int} {rowId : String} {versions : List (VersionedRow δ)}
  {current : Option δ} {call : Call δ}

theorem closeActive_append {now : Int} {old : List (VersionedRow δ)}
    (inactive : ∀ version ∈ old, version.validity.isActive = false)
    (rest : List (VersionedRow δ)) :
    closeActive now (old ++ rest) = (closeActive now rest).map (old ++ ·) := by
  induction old with
  | nil => simp
  | cons version old ih =>
      have notActive := inactive version List.mem_cons_self
      rw [List.cons_append, closeActive, if_neg (by simp [notActive]),
        ih fun other member => inactive other (List.mem_cons_of_mem _ member), Option.map_map]
      rfl

/-- Up to an instant, the last version is the current one and all others are closed. -/
def Reached (timestamp : Int) (rowId : String) (versions : List (VersionedRow δ))
    (current : Option δ) : Prop :=
  ∃ old start, start ≤ timestamp ∧ versions = old ++ (current.map fun data =>
      ⟨rowId, .activeFrom start, data⟩).toList ∧
    ∀ version ∈ old, version.validity.isActive = false ∧ version.validity.validTo ≤ timestamp

/-- The only version of a row that passes a test is the current one. -/
def Shown (test : Validity → Bool) (rowId : String) (versions : List (VersionedRow δ))
    (current : Option δ) : Prop :=
  (versions.filter (test ·.validity)).map (fun version => (version.rowId, version.data)) =
    (current.map (rowId, ·)).toList

theorem Reached.shown {test : Validity → Bool} (reached : Reached timestamp rowId versions current)
    (closed : ∀ validity : Validity, validity.isActive = false → validity.validTo ≤ timestamp →
      test validity = false)
    (active : ∀ start ≤ timestamp, test (.activeFrom start) = true) :
    Shown test rowId versions current := by
  obtain ⟨old, start, early, rfl, past⟩ := reached
  have none : old.filter (test ·.validity) = [] := by
    apply List.filter_eq_nil_iff.mpr
    intro version member
    rw [closed _ (past version member).1 (past version member).2]
    exact Bool.false_ne_true
  rw [Shown, List.filter_append, none]
  cases current with
  | none => rfl
  | some data => simp [active start early]

theorem Reached.replaced {now : Int} (reached : Reached timestamp rowId versions current)
    (early : now ≤ timestamp) (finite : timestamp < timestampMax) (next : Option δ) :
    Reached timestamp rowId (replaced now versions (next.map fun data =>
      ⟨rowId, .activeFrom now, data⟩).toList) (current.bind fun _ => next) := by
  obtain ⟨old, start, before, rfl, closed⟩ := reached
  rw [TemporalTable.replaced, closeActive_append fun version member => (closed version member).1]
  cases current with
  | none => exact ⟨old, start, before, by simp [closeActive], closed⟩
  | some data =>
      refine ⟨old ++ [⟨rowId, ⟨start, now⟩, data⟩], now, early, ?_, ?_⟩
      · simp [closeActive, Validity.isActive, Validity.activeFrom, Validity.closeAt]
      · intro version member
        rcases List.mem_append.mp member with earlier | last
        · exact closed version earlier
        · rw [List.mem_singleton.mp last]
          exact ⟨by simp only [Validity.isActive, decide_eq_false_iff_not]; omega, early⟩

/-- What a call that is made up to the instant does to a row. -/
theorem Reached.changed (reached : Reached timestamp rowId versions current)
    (early : call.now ≤ timestamp) (finite : timestamp < timestampMax) :
    Reached timestamp rowId (changed retentionUs call rowId versions)
      (replay rowId current call) := by
  cases call with
  | insert inserted data now =>
      rw [TemporalTable.changed, replay]
      obtain ⟨old, start, before, rfl, closed⟩ := id reached
      cases current with
      | none =>
          by_cases same : rowId = inserted
          · refine ⟨old, now, early, ?_, closed⟩
            simpa [same] using fun version member => (closed version member).1
          · simpa [same] using reached
      | some current =>
          rw [if_neg (by simp [Validity.isActive, Validity.activeFrom])]
          simpa using reached
  | update updated data now =>
      rw [TemporalTable.changed, replay]
      split
      · rw [Option.map_eq_bind]
        exact reached.replaced early finite (some data)
      · exact reached
  | delete deleted now =>
      rw [TemporalTable.changed, replay]
      split
      · rw [show (none : Option δ) = current.bind fun _ => none by cases current <;> rfl]
        exact reached.replaced early finite none
      · exact reached
  | gc now =>
      obtain ⟨old, start, before, rfl, closed⟩ := reached
      refine ⟨retained (cutoff retentionUs now) old, start, before, ?_, ?_⟩
      · cases current <;>
          simp [TemporalTable.changed, replay, retained, Validity.isActive, Validity.activeFrom]
      · exact fun version member => closed version (List.mem_filter.mp member).1

/-- A version that is closed later was current at the instant if it is so still. -/
theorem Shown.replaced {now : Int} (shown : Shown (·.contains timestamp) rowId versions current)
    (late : timestamp < now) (finite : timestamp < timestampMax) {opened : List (VersionedRow δ)}
    (new : ∀ version ∈ opened, version.validity.validFrom = now) :
    Shown (·.contains timestamp) rowId (replaced now versions opened) current := by
  have closed : ∀ {rest}, closeActive now versions = some rest →
      (rest.filter (·.validity.contains timestamp)).map (fun version =>
          (version.rowId, version.data)) =
        (versions.filter (·.validity.contains timestamp)).map fun version =>
          (version.rowId, version.data) := by
    clear shown
    induction versions with
    | nil => exact fun closing => absurd closing (by simp [closeActive])
    | cons version versions ih =>
        intro rest closing
        rw [closeActive] at closing
        split at closing
        next active =>
          cases closing
          have until_ := of_decide_eq_true active
          simp only [List.filter_cons, Validity.contains, Validity.closeAt, until_, late, finite]
          split <;> rfl
        next =>
          obtain ⟨back, further, rfl⟩ := Option.map_eq_some_iff.mp closing
          simp only [List.filter_cons]
          split <;> simp [ih further]
  rw [TemporalTable.replaced]
  cases closing : closeActive now versions with
  | none => exact shown
  | some rest =>
      have unseen : opened.filter (·.validity.contains timestamp) = [] := by
        apply List.filter_eq_nil_iff.mpr
        intro version member
        simp [Validity.contains, new version member, late]
      rw [Option.map_some, Option.getD_some, Shown, List.filter_append, unseen, List.append_nil,
        closed closing]
      exact shown

/-- What a call that is made after the instant does to a row. -/
theorem Shown.changed (shown : Shown (·.contains timestamp) rowId versions current)
    (late : timestamp < call.now) (finite : timestamp < timestampMax)
    (kept : ∀ now, call = .gc now → cutoff retentionUs now ≤ timestamp) :
    Shown (·.contains timestamp) rowId (changed retentionUs call rowId versions) current := by
  cases call with
  | insert inserted data now =>
      rw [TemporalTable.changed]
      split
      · rw [Shown, List.filter_append]
        have notYet : ¬now ≤ timestamp := not_le_of_gt late
        have unseen : (Validity.activeFrom now).contains timestamp = false := by
          simp [Validity.contains, Validity.activeFrom, notYet]
        rw [List.filter_singleton, unseen, cond_false, List.append_nil]
        exact shown
      · exact shown
  | update updated data now =>
      rw [TemporalTable.changed]
      split
      · exact shown.replaced late finite (by simp [Validity.activeFrom, Call.now])
      · exact shown
  | delete deleted now =>
      rw [TemporalTable.changed]
      split
      · exact shown.replaced late finite (by simp)
      · exact shown
  | gc now =>
      rw [Shown, TemporalTable.changed, retained, List.filter_filter, ← shown]
      congr 1
      apply List.filter_congr
      intro version _
      have purged := kept now rfl
      simp only [Validity.contains]
      rw [Bool.eq_iff_iff]
      simp only [Bool.and_eq_true, Bool.or_eq_true, decide_eq_true_eq]
      constructor
      · exact fun both => both.1
      · exact fun now => ⟨now, .inr (by omega)⟩

end Instant

section Runs

variable {table : TemporalTable δ} {test : Validity → Bool} {timestamp : Int}

/-- A scan finds the current versions of the rows. -/
theorem scan_iff (current : String → Option δ)
    (shown : ∀ rowId, Shown test rowId (table.versions rowId) (current rowId)) {rowId : String}
    {data : δ} : (∃ version ∈ table.scan test, version.rowId = rowId ∧ version.data = data) ↔
      current rowId = some data := by
  have inRow : ∀ other entry, (∃ version ∈ table.versions other, test version.validity = true ∧
      (version.rowId, version.data) = entry) ↔ ∃ data, current other = some data ∧
        (other, data) = entry := by
    intro other entry
    have same := congrArg (entry ∈ ·) (shown other)
    simpa [and_assoc] using same
  simp only [scan, List.mem_flatMap, List.mem_filter]
  constructor
  · rintro ⟨version, ⟨⟨other, versions⟩, member, inside, passes⟩, rfl, rfl⟩
    rw [Std.ExtTreeMap.mem_toList_iff_getElem?_eq_some] at member
    obtain ⟨data, known, same⟩ := (inRow other _).mp
      ⟨version, by rwa [TemporalTable.versions, member], passes, rfl⟩
    cases same
    exact known
  · intro known
    obtain ⟨version, inside, passes, same⟩ := (inRow rowId _).mpr ⟨data, known, rfl⟩
    cases same
    rw [TemporalTable.versions] at inside
    cases found : table.rows[version.rowId]? with
    | none => simp [found] at inside
    | some versions =>
        rw [found] at inside
        exact ⟨version, ⟨_, Std.ExtTreeMap.mem_toList_iff_getElem?_eq_some.mpr found, inside,
          passes⟩, rfl, rfl⟩

theorem retentionUs_step (call : Call δ) : (table.step call).retentionUs = table.retentionUs := by
  cases call <;> simp only [step, insert, update, delete, replaceActive, gc] <;> split <;> try rfl
  all_goals split <;> rfl

theorem reached_run (finite : timestamp < timestampMax) (retentionUs : Int) {calls : List (Call δ)}
    (early : ∀ call ∈ calls, call.now ≤ timestamp) (rowId : String) :
    Reached timestamp rowId ((calls.foldl step (withRetention retentionUs)).versions rowId)
        (calls.foldl (replay rowId) none) ∧
      (calls.foldl step (withRetention retentionUs : TemporalTable δ)).retentionUs =
        retentionUs := by
  induction calls using List.reverseRecOn with
  | nil => exact ⟨⟨[], timestamp, le_refl _, by simp [versions, withRetention], by simp⟩, rfl⟩
  | append_singleton front call ih =>
      obtain ⟨reached, same⟩ := ih fun call member => early call (List.mem_append_left _ member)
      rw [List.foldl_append, List.foldl_append, List.foldl_cons, List.foldl_nil, List.foldl_cons,
        List.foldl_nil, versions_step, retentionUs_step]
      exact ⟨reached.changed (early call (by simp)) finite, same⟩

/-- A table shows the rows that a table without history would have after the same calls. -/
theorem scan_current (retentionUs : Int) (calls : List (Call δ))
    (early : ∀ call ∈ calls, call.now < timestampMax) (rowId : String) (data : δ) :
    (∃ version ∈ (calls.foldl step (withRetention retentionUs)).scanCurrent,
        version.rowId = rowId ∧ version.data = data) ↔
      calls.foldl (replay rowId) none = some data := by
  refine scan_iff (fun rowId => calls.foldl (replay rowId) none) fun rowId => ?_
  refine ((reached_run (Int.sub_one_lt_of_le le_rfl) retentionUs
    (fun call member => Int.le_sub_one_of_lt (early call member)) rowId).1).shown ?_ ?_
  · exact fun validity inactive _ => inactive
  · exact fun start _ => decide_eq_true rfl

theorem scan_current_changed :
    ∃ version ∈ ([Call.insert "a" 1 10, .update "a" 2 20].foldl step
        (withRetention 25)).scanCurrent, version.rowId = "a" ∧ version.data = 2 :=
  (scan_current 25 _ (by decide) "a" 2).mpr (by decide)

end Runs

end TemporalTable

end JouleDB.Temporal
