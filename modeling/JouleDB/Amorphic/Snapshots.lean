import JouleDB.Amorphic.Transaction
import JouleDB.Lib.LastMatch
import JouleDB.Lib.Run
import Mathlib.Data.List.Pairwise

/-!
# What amorphic transactions read

The versions of a record are compared with the writes of the record that have been committed.  They
give every reader what the last write up to its timestamp left, as long as a delete never finds an
open version before the last one: it closes the last version only.
-/

namespace JouleDB.Amorphic

variable {Data Bound : Type}

/-- What the last of the writes of a record up to a timestamp left. -/
def valueAt (writes : List (Timestamp × WriteOp Data)) (ts : Timestamp) : Option Data :=
  match lastWith (fun write => write.1 ≤ ts) writes with
  | some (_, .put data) => some data
  | _ => none

/-- A newer write decides from its timestamp on. -/
theorem valueAt_concat (writes : List (Timestamp × WriteOp Data)) (commitTs ts : Timestamp)
    (op : WriteOp Data) :
    valueAt (writes ++ [(commitTs, op)]) ts =
      if commitTs ≤ ts then (match op with | .put data => some data | .delete => none)
      else valueAt writes ts := by
  unfold valueAt
  rw [lastWith_concat]
  by_cases reached : commitTs ≤ ts
  · cases op <;> simp [reached]
  · simp [reached]

namespace RecordVersion

variable {versions : List (RecordVersion Data)} {ts : Timestamp}

theorem isVisibleAt_iff {version : RecordVersion Data} : version.isVisibleAt ts ↔
    version.writeTs ≤ ts ∧ ∀ deleteTs, version.deleteTs = some deleteTs → ts < deleteTs := by
  unfold isVisibleAt
  cases version.deleteTs <;> simp

/-- In the order of the write timestamps the last version is the latest. -/
theorem latest_eq_getLast? (sorted : versions.Pairwise fun older newer => older.writeTs < newer.writeTs) :
    latest versions = versions.getLast? := by
  induction versions using List.reverseRecOn with
  | nil => rfl
  | append_singleton front last ih =>
      rw [List.pairwise_append] at sorted
      obtain ⟨sortedFront, -, before⟩ := sorted
      rw [latest, List.foldl_concat, ← latest, ih sortedFront, List.getLast?_concat]
      cases found : front.getLast? with
      | none => rfl
      | some other =>
          have below := before other (List.mem_of_getLast? found) last (by simp)
          simp [below.le]

theorem getLast?_filter (property : RecordVersion Data → Bool) :
    (versions.filter property).getLast? = lastWith property versions := by
  rw [lastWith, ← List.head?_filter, List.filter_reverse, List.head?_reverse]

/-- Without versions of its own a transaction sees the last version that is visible. -/
theorem select_eq_lastWith (sorted : versions.Pairwise fun older newer => older.writeTs < newer.writeTs)
    (committed : ∀ version ∈ versions, version.createdBy = none) (txId : Option TxId) :
    select versions ts txId = lastWith (isVisibleAt · ts) versions := by
  have same : (versions.filter fun version =>
      version.isVisibleAt ts || (txId.isSome && version.createdBy = txId)) =
      versions.filter (isVisibleAt · ts) := by
    apply List.filter_congr
    intro version member
    cases txId <;> simp [committed version member]
  rw [select, same, latest_eq_getLast? (sorted.filter _), getLast?_filter]

theorem closeLast_concat (front : List (RecordVersion Data)) (last : RecordVersion Data)
    (deleteTs : Timestamp) :
    closeLast deleteTs (front ++ [last]) =
      front ++ [if last.deleteTs = none then { last with deleteTs := some deleteTs } else last] := by
  induction front with
  | nil => by_cases isOpen : last.deleteTs = none <;> simp [closeLast, isOpen]
  | cons first front ih =>
      cases front with
      | nil => simpa [closeLast] using ih
      | cons second front => simpa [closeLast] using ih

theorem sweep_sublist (minTs : Timestamp) : (sweep minTs versions).Sublist versions := by
  fun_induction sweep minTs versions with
  | case1 => exact .refl []
  | case2 version => exact .refl _
  | case3 version next rest superseded ih => exact ih.cons version
  | case4 version next rest needed ih => exact ih.cons_cons version

end RecordVersion

open RecordVersion

/-- The versions of a record give every reader from a timestamp on what the committed writes of the
record left. -/
structure Tracks (versions : List (RecordVersion Data)) (writes : List (Timestamp × WriteOp Data))
    (floor now : Timestamp) : Prop where
  sorted : versions.Pairwise fun older newer => older.writeTs < newer.writeTs
  recent : ∀ version ∈ versions, version.writeTs ≤ now ∧
    ∀ deleteTs, version.deleteTs = some deleteTs → deleteTs ≤ now
  closed : versions.Pairwise fun older newer => ∀ deleteTs, newer.deleteTs = some deleteTs →
    ∃ earlier, older.deleteTs = some earlier ∧ earlier ≤ deleteTs
  committed : ∀ version ∈ versions, version.createdBy = none
  reads : ∀ ts, floor ≤ ts →
    (lastWith (isVisibleAt · ts) versions).map RecordVersion.data = valueAt writes ts

namespace Tracks

variable {versions : List (RecordVersion Data)} {writes : List (Timestamp × WriteOp Data)}
  {floor now : Timestamp}

theorem nil (floor now : Timestamp) :
    Tracks ([] : List (RecordVersion Data)) ([] : List (Timestamp × WriteOp Data)) floor now where
  sorted := .nil
  recent := by simp
  closed := .nil
  committed := by simp
  reads := fun _ _ => rfl

theorem mono (tracks : Tracks versions writes floor now) {laterFloor later : Timestamp}
    (floors : floor ≤ laterFloor) (times : now ≤ later) :
    Tracks versions writes laterFloor later where
  sorted := tracks.sorted
  recent := by
    intro version member
    obtain ⟨written, deleted⟩ := tracks.recent version member
    exact ⟨written.trans times, fun deleteTs found => (deleted deleteTs found).trans times⟩
  closed := tracks.closed
  committed := tracks.committed
  reads := fun ts reached => tracks.reads ts (floors.trans reached)

theorem put (tracks : Tracks versions writes floor now) {commitTs : Timestamp}
    (newer : now < commitTs) (data : Data) :
    Tracks (versions ++ [⟨data, commitTs, none, none⟩]) (writes ++ [(commitTs, .put data)])
      floor commitTs where
  sorted := by
    rw [List.pairwise_append]
    refine ⟨tracks.sorted, List.pairwise_singleton _ _, ?_⟩
    intro older member last isLast
    rw [List.mem_singleton.mp isLast]
    exact (tracks.recent older member).1.trans_lt newer
  recent := by
    intro version member
    rcases List.mem_append.mp member with old | isNew
    · exact (tracks.mono le_rfl newer.le).recent version old
    · rw [List.mem_singleton.mp isNew]
      exact ⟨le_rfl, by simp⟩
  closed := by
    rw [List.pairwise_append]
    refine ⟨tracks.closed, List.pairwise_singleton _ _, ?_⟩
    intro older member last isLast
    rw [List.mem_singleton.mp isLast]
    simp
  committed := by
    intro version member
    rcases List.mem_append.mp member with old | isNew
    · exact tracks.committed version old
    · rw [List.mem_singleton.mp isNew]
  reads := by
    intro ts reached
    rw [valueAt_concat, lastWith_concat]
    have visible : isVisibleAt (⟨data, commitTs, none, none⟩ : RecordVersion Data) ts =
        decide (commitTs ≤ ts) := by
      simp [isVisibleAt]
    rw [visible]
    by_cases seen : commitTs ≤ ts
    · simp [seen]
    · simpa [seen] using tracks.reads ts reached

/-- At a timestamp from which on every version is closed nothing is visible. -/
theorem lastWith_eq_none_of_closed {ts : Timestamp}
    (closed : ∀ version ∈ versions, ∃ deleteTs, version.deleteTs = some deleteTs ∧ deleteTs ≤ ts) :
    lastWith (isVisibleAt · ts) versions = none := by
  rw [lastWith_eq_none]
  intro version member
  obtain ⟨deleteTs, found, deleted⟩ := closed version member
  rw [Bool.eq_false_iff, ne_eq, isVisibleAt_iff]
  rintro ⟨-, visible⟩
  exact absurd (visible deleteTs found) deleted.not_gt

/-- The last version is closed by a delete, which has to find the other ones closed. -/
theorem delete (tracks : Tracks versions writes floor now) {commitTs : Timestamp}
    (newer : now < commitTs) (others : ∀ version ∈ versions.dropLast, version.deleteTs ≠ none) :
    Tracks (closeLast commitTs versions) (writes ++ [(commitTs, .delete)]) floor commitTs := by
  rcases List.eq_nil_or_concat' versions with empty | ⟨front, last, split⟩
  · subst empty
    refine { Tracks.nil floor commitTs with reads := ?_ }
    intro ts reached
    rw [valueAt_concat, ← tracks.reads ts reached]
    split <;> rfl
  subst split
  rw [List.dropLast_concat] at others
  have later := tracks.mono le_rfl newer.le
  rw [closeLast_concat]
  obtain ⟨sortedFront, -, sortedLast⟩ := List.pairwise_append.mp tracks.sorted
  obtain ⟨closedFront, -, -⟩ := List.pairwise_append.mp tracks.closed
  -- The last version, closed at the latest by this delete.
  obtain ⟨shut, isShut⟩ : ∃ shut, shut =
      if last.deleteTs = none then { last with deleteTs := some commitTs } else last := ⟨_, rfl⟩
  rw [← isShut]
  have written : shut.writeTs = last.writeTs := by
    rw [isShut]
    split <;> rfl
  have shutAt : ∃ deleteTs, shut.deleteTs = some deleteTs ∧ deleteTs ≤ commitTs ∧
      (last.deleteTs = none → deleteTs = commitTs) ∧
      ∀ old, last.deleteTs = some old → deleteTs = old := by
    cases found : last.deleteTs with
    | none => exact ⟨commitTs, by simp [isShut, found]⟩
    | some deleteTs =>
        have within := (later.recent last (by simp)).2 deleteTs found
        exact ⟨deleteTs, by simp [isShut, found, within]⟩
  obtain ⟨deleteTs, shutDelete, inTime, ifOpen, ifClosed⟩ := shutAt
  have frontClosed : ∀ version ∈ front, ∃ earlier, version.deleteTs = some earlier ∧
      earlier ≤ deleteTs := by
    intro version member
    obtain ⟨earlier, found⟩ := Option.ne_none_iff_exists'.mp (others version member)
    cases state : last.deleteTs with
    | none =>
        have within := (tracks.recent version (by simp [member])).2 earlier found
        exact ⟨earlier, found, by rw [ifOpen state]; exact within.trans newer.le⟩
    | some old =>
        have order := (List.pairwise_append.mp tracks.closed).2.2 version member last (by simp)
        obtain ⟨same, equal, below⟩ := order old state
        exact ⟨same, equal, by rwa [ifClosed old state]⟩
  constructor
  case sorted =>
    rw [List.pairwise_append]
    refine ⟨sortedFront, List.pairwise_singleton _ _, ?_⟩
    intro older member version isLast
    rw [List.mem_singleton.mp isLast, written]
    exact sortedLast older member last (by simp)
  case recent =>
    intro version member
    rcases List.mem_append.mp member with old | isLast
    · exact later.recent version (by simp [old])
    · rw [List.mem_singleton.mp isLast, written]
      refine ⟨(later.recent last (by simp)).1, ?_⟩
      intro other found
      rw [shutDelete] at found
      exact Option.some.inj found ▸ inTime
  case closed =>
    rw [List.pairwise_append]
    refine ⟨closedFront, List.pairwise_singleton _ _, ?_⟩
    intro older member version isLast other found
    rw [List.mem_singleton.mp isLast, shutDelete] at found
    cases found
    exact frontClosed older member
  case committed =>
    intro version member
    rcases List.mem_append.mp member with old | isLast
    · exact tracks.committed version (by simp [old])
    · have none := tracks.committed last (by simp)
      rw [List.mem_singleton.mp isLast, isShut]
      split <;> exact none
  case reads =>
    intro ts reached
    rw [valueAt_concat]
    split
    next seen =>
      rw [lastWith_eq_none_of_closed, Option.map_none]
      intro version member
      rcases List.mem_append.mp member with old | isLast
      · obtain ⟨earlier, found, below⟩ := frontClosed version old
        exact ⟨earlier, found, below.trans (inTime.trans seen)⟩
      · rw [List.mem_singleton.mp isLast]
        exact ⟨deleteTs, shutDelete, inTime.trans seen⟩
    next unseen =>
      rw [← tracks.reads ts reached, lastWith_concat, lastWith_concat]
      -- Before the delete the last version is as visible as it was, and its data are the same.
      have visible : shut.isVisibleAt ts = last.isVisibleAt ts := by
        rw [Bool.eq_iff_iff, isVisibleAt_iff, isVisibleAt_iff, written, shutDelete]
        cases found : last.deleteTs with
        | none =>
            have before : ts < deleteTs := by
              rw [ifOpen found]
              exact not_le.mp unseen
            simp [before]
        | some old => rw [ifClosed old found]
      have data : shut.data = last.data := by
        rw [isShut]
        split <;> rfl
      rw [visible]
      split
      · simp [data]
      · rfl

/-- A transaction without versions of its own is given what the writes left. -/
theorem map_select (tracks : Tracks versions writes floor now) {ts : Timestamp}
    (reached : floor ≤ ts) (txId : Option TxId) :
    (select versions ts txId).map RecordVersion.data = valueAt writes ts := by
  rw [select_eq_lastWith tracks.sorted tracks.committed]
  exact tracks.reads ts reached

/-- A version may be removed whose successor is not newer than any reader. -/
theorem lastWith_sweep {minTs ts : Timestamp} (reached : minTs ≤ ts)
    (closed : versions.Pairwise fun older newer => ∀ deleteTs, newer.deleteTs = some deleteTs →
      ∃ earlier, older.deleteTs = some earlier ∧ earlier ≤ deleteTs) :
    lastWith (isVisibleAt · ts) (sweep minTs versions) = lastWith (isVisibleAt · ts) versions := by
  fun_induction sweep minTs versions with
  | case1 => rfl
  | case2 version => rfl
  | case3 version next rest superseded ih =>
      rw [ih closed.of_cons, lastWith_cons version (next :: rest)]
      cases found : lastWith (isVisibleAt · ts) (next :: rest) with
      | some seen => rfl
      | none =>
          -- The successor is not visible, hence closed, and so the version was closed before.
          have hidden : ¬version.isVisibleAt ts := by
            have nextHidden := lastWith_eq_none.mp found next List.mem_cons_self
            rw [Bool.eq_false_iff, ne_eq, isVisibleAt_iff] at nextHidden
            rw [isVisibleAt_iff]
            rintro ⟨-, visible⟩
            apply nextHidden
            refine ⟨superseded.le.trans reached, ?_⟩
            intro deleteTs nextClosed
            obtain ⟨earlier, versionClosed, below⟩ :=
              List.rel_of_pairwise_cons closed List.mem_cons_self deleteTs nextClosed
            exact (visible earlier versionClosed).trans_le below
          simp [hidden]
  | case4 version next rest needed ih =>
      rw [lastWith_cons, lastWith_cons version, ih closed.of_cons]

/-- Garbage collection below every reader changes no read. -/
theorem sweep (tracks : Tracks versions writes floor now) {minTs laterFloor : Timestamp}
    (floors : floor ≤ laterFloor) (readers : minTs ≤ laterFloor) :
    Tracks (RecordVersion.sweep minTs versions) writes laterFloor now where
  sorted := tracks.sorted.sublist (sweep_sublist minTs)
  recent := fun version member => tracks.recent version ((sweep_sublist minTs).subset member)
  closed := tracks.closed.sublist (sweep_sublist minTs)
  committed := fun version member => tracks.committed version ((sweep_sublist minTs).subset member)
  reads := by
    intro ts reached
    rw [lastWith_sweep (readers.trans reached) tracks.closed]
    exact tracks.reads ts (floors.trans reached)

end Tracks

/-- The committed writes of a record. -/
def writesOf (history : List (Commit Data)) (record : RecordId) :
    List (Timestamp × WriteOp Data) :=
  history.filterMap fun commit => commit.writeSet[record]?.map fun op => (commit.commitTs, op)

theorem writesOf_concat (history : List (Commit Data)) (commit : Commit Data) (record : RecordId) :
    writesOf (history ++ [commit]) record =
      writesOf history record ++
        (commit.writeSet[record]?.map fun op => (commit.commitTs, op)).toList := by
  rw [writesOf, List.filterMap_append]
  cases found : commit.writeSet[record]? <;> simp [found, writesOf]

namespace VersionStore

variable {store : VersionStore Data Bound}

/-- How a write changes the versions of its record. -/
def written (commitTs : Timestamp) (versions : Option (List (RecordVersion Data))) :
    WriteOp Data → Option (List (RecordVersion Data))
  | .put data => some (versions.getD [] ++ [⟨data, commitTs, none, none⟩])
  | .delete => versions.map (closeLast commitTs)

theorem applyWrite_eq (commitTs : Timestamp) (store : VersionStore Data Bound) (record : RecordId)
    (op : WriteOp Data) :
    applyWrite commitTs store record op =
      { store with versions := store.versions.alter record fun old => written commitTs old op } := by
  cases op with
  | put data =>
      simp only [applyWrite, addVersion, mk.injEq, and_true]
      apply Std.ExtTreeMap.ext_getElem?
      intro other
      rw [Std.ExtTreeMap.getElem?_insert, Std.ExtTreeMap.getElem?_alter]
      rfl
  | delete =>
      simp only [applyWrite, markDeleted]
      cases found : store.versions[record]? with
      | some versions =>
        simp only [mk.injEq, and_true]
        apply Std.ExtTreeMap.ext_getElem?
        intro other
        rw [Std.ExtTreeMap.getElem?_insert, Std.ExtTreeMap.getElem?_alter, found]
        rfl
      | none =>
        have same : store.versions = store.versions.alter record fun old =>
            written commitTs old .delete := by
          apply Std.ExtTreeMap.ext_getElem?
          intro other
          rw [Std.ExtTreeMap.getElem?_alter]
          split
          next equal =>
            have equal : record = other := by simpa using equal
            rw [← equal, found]
            rfl
          next => rfl
        rw [← same]

/-- A commit writes each record of its write set once. -/
theorem foldl_applyWrite (commitTs : Timestamp) (store : VersionStore Data Bound)
    (writeSet : FiniteMap RecordId (WriteOp Data)) :
    writeSet.foldl (applyWrite commitTs) store =
      { store with versions := FiniteMap.absorb (written commitTs) store.versions writeSet } := by
  rw [FiniteMap.absorb, Std.ExtTreeMap.foldl_eq_foldl_toList, Std.ExtTreeMap.foldl_eq_foldl_toList]
  induction writeSet.toList generalizing store with
  | nil => rfl
  | cons entry entries ih =>
      rw [List.foldl_cons, List.foldl_cons, applyWrite_eq, ih]

theorem versionsOf_foldl_applyWrite (commitTs : Timestamp) (store : VersionStore Data Bound)
    (writeSet : FiniteMap RecordId (WriteOp Data)) (record : RecordId) :
    (writeSet.foldl (applyWrite commitTs) store).versionsOf record =
      match writeSet[record]? with
      | some (.put data) => store.versionsOf record ++ [⟨data, commitTs, none, none⟩]
      | some .delete => closeLast commitTs (store.versionsOf record)
      | none => store.versionsOf record := by
  rw [foldl_applyWrite]
  unfold versionsOf
  rw [FiniteMap.getElem?_absorb]
  cases writeSet[record]? with
  | none => rfl
  | some op =>
      cases op with
      | put data => rfl
      | delete => cases store.versions[record]? <;> rfl

theorem getVersionAt_eq_select (record : RecordId) (ts : Timestamp) (txId : Option TxId) :
    store.getVersionAt record ts txId = RecordVersion.select (store.versionsOf record) ts txId := by
  unfold getVersionAt versionsOf
  cases store.versions[record]? <;> rfl

theorem versionsOf_gc (record : RecordId) :
    store.gc.versionsOf record =
      RecordVersion.sweep (store.minActiveReadTs.getD store.currentTs) (store.versionsOf record) := by
  unfold gc versionsOf
  simp only [Std.ExtTreeMap.getElem?_map]
  cases store.versions[record]? <;> rfl

/-- No running transaction reads below the timestamp up to which garbage is collected. -/
theorem minActiveReadTs_le {txId : TxId} {ts : Timestamp}
    (running : store.activeTransactions[txId]? = some ts) :
    store.minActiveReadTs.getD store.currentTs ≤ ts := by
  have member : ts ∈ store.activeTransactions.toList.map Prod.snd :=
    List.mem_map.mpr ⟨(txId, ts), Std.ExtTreeMap.mem_toList_iff_getElem?_eq_some.mpr running, rfl⟩
  unfold minActiveReadTs
  cases found : (store.activeTransactions.toList.map Prod.snd).min? with
  | none =>
      rw [List.min?_eq_none_iff] at found
      rw [found] at member
      exact absurd member List.not_mem_nil
  | some least => exact (List.min?_eq_some_iff.mp found).2 ts member

theorem minActiveReadTs_le_currentTs
    (running : ∀ (txId : TxId) ts, store.activeTransactions[txId]? = some ts → ts ≤ store.currentTs) :
    store.minActiveReadTs.getD store.currentTs ≤ store.currentTs := by
  unfold minActiveReadTs
  cases found : (store.activeTransactions.toList.map Prod.snd).min? with
  | none => exact le_rfl
  | some least =>
      obtain ⟨entry, member, rfl⟩ := List.mem_map.mp (List.min?_mem found)
      exact running entry.1 entry.2 (Std.ExtTreeMap.mem_toList_iff_getElem?_eq_some.mp member)

end VersionStore

/-- What reads depend on is the same in two stores. -/
structure VersionStore.SameReads (store other : VersionStore Data Bound) : Prop where
  versions : other.versions = store.versions
  currentTs : other.currentTs = store.currentTs
  active : other.activeTransactions = store.activeTransactions

/-- A transaction goes on: it remains the same transaction, and what it does appears in its trace
and in its write set. -/
structure Session.Advances (store : VersionStore Data Bound) (before after : Session Data Bound) :
    Prop where
  id : after.transaction.id = before.transaction.id
  isolation : after.transaction.isolation = before.transaction.isolation
  readTs : after.transaction.readTs = before.transaction.readTs
  state : after.transaction.state = before.transaction.state
  effect :
    (after.trace = before.trace ∧ after.transaction.writeSet = before.transaction.writeSet) ∨
    (∃ record result, before.transaction.getRecord store record = .ok result ∧
      after.trace = before.trace ++ [.get record result] ∧
      after.transaction.writeSet = before.transaction.writeSet) ∨
    (∃ record data, after.trace = before.trace ++ [.put record data] ∧
      after.transaction.writeSet = before.transaction.writeSet.insert record (.put data)) ∨
    (∃ record found, before.transaction.getRecord store record = .ok found ∧
      after.trace = before.trace ++ [.delete record found.isSome] ∧
      after.transaction.writeSet =
        if found.isSome then before.transaction.writeSet.insert record .delete
        else before.transaction.writeSet)

namespace World

variable [LE Bound] [DecidableLE Bound] {world : World Data Bound}

/-- The world after a commit that succeeds. -/
def committed (world : World Data Bound) (txId : TxId) (session : Session Data Bound) :
    World Data Bound :=
  let commitTs := world.store.currentTs + 1
  let written := session.transaction.writeSet.foldl (VersionStore.applyWrite commitTs)
    { world.store with currentTs := commitTs }
  { world with
    store := written.endTransaction session.transaction.id
    sessions := world.sessions.erase txId
    history := world.history ++
      [⟨session.transaction.id, session.transaction.isolation, session.transaction.readTs,
        commitTs, session.transaction.writeSet, session.trace⟩] }

/-- What a step can be: nothing, a begin, a transaction that goes on, one that ends without effect,
a commit, or garbage collection. -/
inductive Steps (world : World Data Bound) : Action Data Bound → World Data Bound → Prop where
  | nothing (action) : Steps world action world
  | begins (isolation) : Steps world (.begin isolation) (world.step (.begin isolation))
  | advances {action txId session after store} (running : world.sessions[txId]? = some session)
      (same : world.store.SameReads store) (advance : session.Advances world.store after) :
      Steps world action
        { world with store := store, sessions := world.sessions.insert txId after }
  | ends {action txId session store} (running : world.sessions[txId]? = some session)
      (released : store = world.store ∨ store = world.store.endTransaction session.transaction.id) :
      Steps world action { world with store := store, sessions := world.sessions.erase txId }
  | commits {txId session store} (running : world.sessions[txId]? = some session)
      (success : session.transaction.doCommit world.store = .ok store) :
      Steps world (.call txId .commit) (world.committed txId session)
  | collects : Steps world .gc { world with store := world.store.gc }

section Calls

variable {transaction after : AmorphicTransaction Data Bound} {store next : VersionStore Data Bound}
  {record : RecordId}

omit [LE Bound] [DecidableLE Bound] in
theorem sameReads_of_tryLock {txId : TxId} (locked : store.tryLock record txId = .ok next) :
    store.SameReads next := by
  unfold VersionStore.tryLock at locked
  split at locked
  · split at locked <;> cases locked
    exact ⟨rfl, rfl, rfl⟩
  · cases locked
    exact ⟨rfl, rfl, rfl⟩

omit [LE Bound] [DecidableLE Bound] in
theorem putRecord_ok {data : Data} (done : transaction.putRecord store record data = .ok (after, next)) :
    store.SameReads next ∧
      after = { transaction with writeSet := transaction.writeSet.insert record (.put data) } := by
  unfold AmorphicTransaction.putRecord at done
  split at done
  · cases done
  · cases locked : store.tryLock record transaction.id with
    | error failure =>
        rw [locked] at done
        cases done
    | ok taken =>
        rw [locked] at done
        cases done
        exact ⟨sameReads_of_tryLock locked, rfl⟩

omit [LE Bound] [DecidableLE Bound] in
theorem deleteRecord_ok {existed : Bool}
    (done : transaction.deleteRecord store record = .ok (existed, after, next)) :
    store.SameReads next ∧ ∃ found, transaction.getRecord store record = .ok found ∧
      existed = found.isSome ∧
      after = { transaction with writeSet :=
        if found.isSome then transaction.writeSet.insert record .delete
        else transaction.writeSet } := by
  unfold AmorphicTransaction.deleteRecord at done
  split at done
  · cases done
  · cases read : transaction.getRecord store record with
    | error failure =>
        rw [read] at done
        cases done
    | ok found =>
        rw [read] at done
        cases found with
        | none =>
            cases done
            exact ⟨⟨rfl, rfl, rfl⟩, none, rfl, rfl, rfl⟩
        | some data =>
            cases locked : store.tryLock record transaction.id with
            | error failure =>
                simp only [bind, Except.bind, Option.isSome_some, if_true, locked] at done
                cases done
            | ok taken =>
                simp only [bind, Except.bind, Option.isSome_some, if_true, locked] at done
                cases done
                exact ⟨sameReads_of_tryLock locked, some data, rfl, rfl, rfl⟩

theorem doCommit_ok (done : transaction.doCommit store = .ok next) :
    transaction.state = .active ∧
      next = (transaction.writeSet.foldl (VersionStore.applyWrite (store.currentTs + 1))
        { store with currentTs := store.currentTs + 1 }).endTransaction transaction.id := by
  unfold AmorphicTransaction.doCommit at done
  split at done
  · cases done
  next active =>
    refine ⟨not_not.mp active, ?_⟩
    simp only at done
    split at done
    · cases done
    · cases done
      rfl

end Calls

theorem steps_step (world : World Data Bound) (action : Action Data Bound) :
    world.Steps action (world.step action) := by
  cases action with
  | begin isolation => exact .begins isolation
  | gc => exact .collects
  | call txId call =>
      cases running : world.sessions[txId]? with
      | none =>
          rw [show world.step (.call txId call) = world by simp [step, running]]
          exact .nothing _
      | some session =>
          rw [show world.step (.call txId call) = world.call txId session call by
            simp [step, running]]
          cases call with
          | getRecord record =>
              simp only [World.call]
              split
              next result read =>
                exact .advances running ⟨rfl, rfl, rfl⟩
                  ⟨rfl, rfl, rfl, rfl, .inr (.inl ⟨record, result, read, rfl, rfl⟩)⟩
              next => exact .nothing _
          | putRecord record data =>
              simp only [World.call]
              split
              next after store done =>
                obtain ⟨same, rfl⟩ := putRecord_ok done
                exact .advances running same
                  ⟨rfl, rfl, rfl, rfl, .inr (.inr (.inl ⟨record, data, rfl, rfl⟩))⟩
              next => exact .nothing _
          | deleteRecord record =>
              simp only [World.call]
              split
              next existed after store done =>
                obtain ⟨same, found, read, rfl, rfl⟩ := deleteRecord_ok done
                exact .advances running same
                  ⟨rfl, rfl, rfl, rfl, .inr (.inr (.inr ⟨record, found, read, rfl, rfl⟩))⟩
              next => exact .nothing _
          | recordRangeRead table field min max =>
              simp only [World.call, AmorphicTransaction.recordRangeRead]
              split
              · exact .advances running ⟨rfl, rfl, rfl⟩ ⟨rfl, rfl, rfl, rfl, .inl ⟨rfl, rfl⟩⟩
              · exact .advances running ⟨rfl, rfl, rfl⟩ ⟨rfl, rfl, rfl, rfl, .inl ⟨rfl, rfl⟩⟩
          | recordRangeWrite table field min max =>
              have same : world.sessions.insert txId session = world.sessions := by
                apply Std.ExtTreeMap.ext_getElem?
                intro other
                rw [Std.ExtTreeMap.getElem?_insert]
                split
                next equal =>
                  have equal : txId = other := by simpa using equal
                  rw [← equal, running]
                next => rfl
              have unlocked : world.store.SameReads
                  (session.transaction.recordRangeWrite world.store table field min max) := by
                unfold AmorphicTransaction.recordRangeWrite
                split <;> exact ⟨rfl, rfl, rfl⟩
              have advance : world.Steps (.call txId (.recordRangeWrite table field min max)) _ :=
                .advances running unlocked
                  (⟨rfl, rfl, rfl, rfl, .inl ⟨rfl, rfl⟩⟩ : session.Advances world.store session)
              rw [same] at advance
              exact advance
          | commit =>
              simp only [World.call]
              split
              next store done =>
                have result := (doCommit_ok done).2
                have commits := Steps.commits running done
                rw [committed, ← result] at commits
                have current : store.currentTs = world.store.currentTs + 1 := by
                  rw [result, VersionStore.foldl_applyWrite]
                  rfl
                rw [current]
                exact commits
              next => exact .ends running (.inl rfl)
          | rollback =>
              simp only [World.call]
              split
              next store done =>
                unfold AmorphicTransaction.doRollback at done
                split at done <;> cases done
                exact .ends running (.inr rfl)
              next => exact .ends running (.inl rfl)

/-- The world keeps what its readers need. -/
structure Sound (world : World Data Bound) : Prop where
  tracks : ∃ floor ≤ world.store.currentTs,
    (∀ (txId : TxId) ts, world.store.activeTransactions[txId]? = some ts → floor ≤ ts) ∧
    ∀ record, Tracks (world.store.versionsOf record) (writesOf world.history record) floor
      world.store.currentTs
  active : ∀ (txId : TxId) ts, world.store.activeTransactions[txId]? = some ts →
    ts ≤ world.store.currentTs
  sessions : ∀ (txId : TxId) session, world.sessions[txId]? = some session →
    session.transaction.id = txId ∧ session.transaction.state = .active ∧
      world.store.activeTransactions[txId]? = some session.transaction.readTs
  history : world.history.Pairwise fun first second => first.commitTs < second.commitTs
  past : ∀ commit ∈ world.history, commit.commitTs ≤ world.store.currentTs

/-- Each record that a transaction deletes has no open version before the last one. -/
def DeletesLast (world : World Data Bound) (session : Session Data Bound) : Prop :=
  ∀ entry ∈ session.transaction.writeSet.toList, entry.2 = .delete →
    ∀ version ∈ (world.store.versionsOf entry.1).dropLast, version.deleteTs ≠ none

/-- A commit that deletes a record finds no open version of it before the last one. -/
def ClosesAll (world : World Data Bound) : Action Data Bound → Prop
  | .call txId .commit => ∀ session ∈ world.sessions[txId]?,
      (session.transaction.doCommit world.store).isOk → world.DeletesLast session
  | _ => True

instance [DecidableEq Data] (world : World Data Bound) (session : Session Data Bound) :
    Decidable (world.DeletesLast session) :=
  inferInstanceAs (Decidable (∀ _ ∈ _, _))

instance [DecidableEq Data] (world : World Data Bound) (action : Action Data Bound) :
    Decidable (world.ClosesAll action) :=
  match action with
  | .call txId .commit => inferInstanceAs (Decidable (∀ _ ∈ world.sessions[txId]?, _))
  | .begin _ | .gc | .call _ (.getRecord _) | .call _ (.putRecord _ _) | .call _ (.deleteRecord _)
  | .call _ (.recordRangeRead _ _ _ _) | .call _ (.recordRangeWrite _ _ _ _) | .call _ .rollback =>
      .isTrue trivial

omit [LE Bound] [DecidableLE Bound] in
theorem sound_new : (new : World Data Bound).Sound where
  tracks := ⟨0, Nat.zero_le _, by simp [new, VersionStore.new], fun _ => Tracks.nil 0 _⟩
  active := by simp [new, VersionStore.new]
  sessions := by simp [new]
  history := .nil
  past := by simp [new]

theorem Sound.begins (sound : world.Sound) (isolation : IsolationLevel) :
    (world.step (.begin isolation)).Sound := by
  obtain ⟨floor, low, readers, tracks⟩ := sound.tracks
  constructor
  case tracks =>
    refine ⟨floor, low, ?_, tracks⟩
    intro txId ts running
    simp only [step, AmorphicTransaction.new, VersionStore.beginTransaction,
      Std.ExtTreeMap.getElem?_insert] at running
    split at running
    · exact Option.some.inj running ▸ low
    · exact readers txId ts running
  case active =>
    intro txId ts running
    simp only [step, AmorphicTransaction.new, VersionStore.beginTransaction,
      Std.ExtTreeMap.getElem?_insert] at running
    split at running
    · exact Option.some.inj running ▸ le_rfl
    · exact sound.active txId ts running
  case sessions =>
    intro txId session running
    simp only [step, AmorphicTransaction.new, VersionStore.beginTransaction,
      Std.ExtTreeMap.getElem?_insert] at running ⊢
    split at running
    next equal =>
      cases running
      exact ⟨by simpa using equal, rfl, by rw [if_pos equal]⟩
    next distinct =>
      obtain ⟨id, state, reading⟩ := sound.sessions txId session running
      exact ⟨id, state, by rw [if_neg distinct]; exact reading⟩
  case history => exact sound.history
  case past => exact sound.past

omit [LE Bound] [DecidableLE Bound] in
theorem Sound.advances (sound : world.Sound) {txId : TxId} {session after : Session Data Bound}
    {store : VersionStore Data Bound} (running : world.sessions[txId]? = some session)
    (same : world.store.SameReads store) (advance : session.Advances world.store after) :
    Sound { world with store := store, sessions := world.sessions.insert txId after } := by
  have versions : ∀ record, store.versionsOf record = world.store.versionsOf record := by
    intro record
    rw [VersionStore.versionsOf, same.versions]
    rfl
  constructor
  case tracks =>
    simpa only [versions, same.currentTs, same.active] using sound.tracks
  case active => simpa only [same.currentTs, same.active] using sound.active
  case sessions =>
    intro other found foundRunning
    rw [Std.ExtTreeMap.getElem?_insert] at foundRunning
    split at foundRunning
    next equal =>
      have equal : txId = other := by simpa using equal
      subst equal
      cases foundRunning
      rw [advance.id, advance.state, advance.readTs, same.active]
      exact sound.sessions txId session running
    next =>
      rw [same.active]
      exact sound.sessions other found foundRunning
  case history => exact sound.history
  case past => simpa only [same.currentTs] using sound.past

omit [LE Bound] [DecidableLE Bound] in
theorem Sound.ends (sound : world.Sound) {txId : TxId} {session : Session Data Bound}
    {store : VersionStore Data Bound} (running : world.sessions[txId]? = some session)
    (released : store = world.store ∨ store = world.store.endTransaction session.transaction.id) :
    Sound { world with store := store, sessions := world.sessions.erase txId } := by
  have id := (sound.sessions txId session running).1
  have fewer : ∀ (other : TxId) ts, store.activeTransactions[other]? = some ts →
      world.store.activeTransactions[other]? = some ts := by
    intro other ts held
    rcases released with rfl | rfl
    · exact held
    · simp only [VersionStore.endTransaction, Std.ExtTreeMap.getElem?_erase] at held
      split at held
      · cases held
      · exact held
  have others : ∀ other : TxId, other ≠ txId →
      store.activeTransactions[other]? = world.store.activeTransactions[other]? := by
    intro other distinct
    rcases released with rfl | rfl
    · rfl
    · simp [VersionStore.endTransaction, Std.ExtTreeMap.getElem?_erase, id, distinct.symm]
  have versions : ∀ record, store.versionsOf record = world.store.versionsOf record := by
    intro record
    rcases released with rfl | rfl <;> rfl
  have currentTs : store.currentTs = world.store.currentTs := by
    rcases released with rfl | rfl <;> rfl
  obtain ⟨floor, low, readers, tracks⟩ := sound.tracks
  constructor
  case tracks =>
    refine ⟨floor, by rwa [currentTs], fun other ts held => readers other ts (fewer other ts held), ?_⟩
    intro record
    rw [versions, currentTs]
    exact tracks record
  case active =>
    intro other ts held
    rw [currentTs]
    exact sound.active other ts (fewer other ts held)
  case sessions =>
    intro other found foundRunning
    rw [Std.ExtTreeMap.getElem?_erase] at foundRunning
    split at foundRunning
    · cases foundRunning
    next distinct =>
      have distinct : txId ≠ other := by simpa using distinct
      rw [others other distinct.symm]
      exact sound.sessions other found foundRunning
  case history => exact sound.history
  case past => simpa only [currentTs] using sound.past

omit [LE Bound] [DecidableLE Bound] in
theorem Sound.collects (sound : world.Sound) : Sound { world with store := world.store.gc } := by
  obtain ⟨floor, low, readers, tracks⟩ := sound.tracks
  have least := VersionStore.minActiveReadTs_le_currentTs sound.active
  refine { sound with
    tracks := ⟨max floor (world.store.minActiveReadTs.getD world.store.currentTs),
      max_le low least, ?_, ?_⟩ }
  · intro txId ts running
    exact max_le (readers txId ts running) (VersionStore.minActiveReadTs_le running)
  · intro record
    rw [VersionStore.versionsOf_gc]
    exact (tracks record).sweep (le_max_left _ _) (le_max_right _ _)

/-- A commit appends one write of each record of its write set. -/
theorem tracks_committed {versions : List (RecordVersion Data)}
    {writes : List (Timestamp × WriteOp Data)} {floor now : Timestamp}
    (tracks : Tracks versions writes floor now) (op : Option (WriteOp Data))
    (others : op = some .delete → ∀ version ∈ versions.dropLast, version.deleteTs ≠ none) :
    Tracks
      (match op with
        | some (.put data) => versions ++ [⟨data, now + 1, none, none⟩]
        | some .delete => closeLast (now + 1) versions
        | none => versions)
      (writes ++ (op.map fun op => (now + 1, op)).toList) floor (now + 1) := by
  match op with
  | none => simpa using tracks.mono le_rfl (Nat.le_succ now)
  | some (.put data) => exact tracks.put (Nat.lt_succ_self now) data
  | some .delete => exact tracks.delete (Nat.lt_succ_self now) (others rfl)

theorem Sound.commits (sound : world.Sound) {txId : TxId} {session : Session Data Bound}
    {store : VersionStore Data Bound} (running : world.sessions[txId]? = some session)
    (success : session.transaction.doCommit world.store = .ok store)
    (closes : world.ClosesAll (.call txId .commit)) : (world.committed txId session).Sound := by
  have closes := closes session running (by rw [success]; rfl)
  obtain ⟨floor, low, readers, tracks⟩ := sound.tracks
  -- The commit itself, before the transaction is taken off the running ones.
  have written : Sound { world with
      store := session.transaction.writeSet.foldl
        (VersionStore.applyWrite (world.store.currentTs + 1))
        { world.store with currentTs := world.store.currentTs + 1 }
      history := world.history ++
        [⟨session.transaction.id, session.transaction.isolation, session.transaction.readTs,
          world.store.currentTs + 1, session.transaction.writeSet, session.trace⟩] } := by
    constructor
    case tracks =>
      refine ⟨floor, ?_, ?_, ?_⟩
      · rw [VersionStore.foldl_applyWrite]
        exact low.trans (Nat.le_succ _)
      · rw [VersionStore.foldl_applyWrite]
        exact readers
      · intro record
        rw [VersionStore.versionsOf_foldl_applyWrite, VersionStore.foldl_applyWrite, writesOf_concat]
        apply tracks_committed (tracks record)
        intro deletes
        exact closes (record, .delete)
          (Std.ExtTreeMap.mem_toList_iff_getElem?_eq_some.mpr deletes) rfl
    case active =>
      rw [VersionStore.foldl_applyWrite]
      intro other ts held
      exact (sound.active other ts held).trans (Nat.le_succ _)
    case sessions =>
      rw [VersionStore.foldl_applyWrite]
      exact sound.sessions
    case history =>
      rw [List.pairwise_append]
      refine ⟨sound.history, List.pairwise_singleton _ _, ?_⟩
      intro earlier member last isLast
      rw [List.mem_singleton.mp isLast]
      exact Nat.lt_succ_of_le (sound.past earlier member)
    case past =>
      rw [VersionStore.foldl_applyWrite]
      intro commit member
      rcases List.mem_append.mp member with old | isNew
      · exact (sound.past commit old).trans (Nat.le_succ _)
      · rw [List.mem_singleton.mp isNew]
  exact written.ends running (.inr rfl)

theorem sound_step (sound : world.Sound) (action : Action Data Bound)
    (closes : world.ClosesAll action) : (world.step action).Sound := by
  have steps := world.steps_step action
  generalize world.step action = after at steps ⊢
  cases steps with
  | nothing => exact sound
  | begins isolation => exact sound.begins isolation
  | advances running same advance => exact sound.advances running same advance
  | ends running released => exact sound.ends running released
  | commits running success => exact sound.commits running success closes
  | collects => exact sound.collects

omit [LE Bound] [DecidableLE Bound] in
/-- A transaction reads what the committed writes up to its timestamp left, unless it has written
the record itself. -/
theorem Sound.getRecord_eq (sound : world.Sound) {txId : TxId} {session : Session Data Bound}
    (running : world.sessions[txId]? = some session) (record : RecordId) :
    session.transaction.getRecord world.store record =
      .ok (match session.transaction.writeSet[record]? with
        | some (.put data) => some data
        | some .delete => none
        | none => valueAt (writesOf world.history record) session.transaction.readTs) := by
  obtain ⟨-, state, reading⟩ := sound.sessions txId session running
  obtain ⟨floor, -, readers, tracks⟩ := sound.tracks
  have found := (tracks record).map_select (readers txId _ reading) (some session.transaction.id)
  rw [← VersionStore.getVersionAt_eq_select] at found
  unfold AmorphicTransaction.getRecord
  rw [if_neg (not_not.mpr state), found]
  cases session.transaction.writeSet[record]? with
  | none => rfl
  | some op => cases op <;> rfl

end World

/-- The put of a record with the largest commit timestamp up to a timestamp. -/
def LastPut (history : List (Commit Data)) (record : RecordId) (ts putTs : Timestamp)
    (data : Data) : Prop :=
  (∃ commit ∈ history, commit.commitTs = putTs ∧ commit.writeSet[record]? = some (.put data)) ∧
    putTs ≤ ts ∧
    ∀ commit ∈ history, ∀ other, commit.writeSet[record]? = some (.put other) →
      commit.commitTs ≤ ts → commit.commitTs ≤ putTs

/-- A delete of a record has been committed after a timestamp and up to another one. -/
def DeletedAfter (history : List (Commit Data)) (record : RecordId) (putTs ts : Timestamp) : Prop :=
  ∃ commit ∈ history, commit.writeSet[record]? = some .delete ∧ putTs < commit.commitTs ∧
    commit.commitTs ≤ ts

/-- What a snapshot at a timestamp holds of a record: the data of the last put, unless it was deleted
afterwards. -/
def SnapshotRead (history : List (Commit Data)) (record : RecordId) (ts : Timestamp) :
    Option Data → Prop
  | some data => ∃ putTs, LastPut history record ts putTs data ∧ ¬DeletedAfter history record putTs ts
  | none => ∀ putTs data, LastPut history record ts putTs data → DeletedAfter history record putTs ts

theorem mem_writesOf {history : List (Commit Data)} {record : RecordId} {commitTs : Timestamp}
    {op : WriteOp Data} : (commitTs, op) ∈ writesOf history record ↔
      ∃ commit ∈ history, commit.commitTs = commitTs ∧ commit.writeSet[record]? = some op := by
  simp only [writesOf, List.mem_filterMap, Option.map_eq_some_iff, Prod.mk.injEq]
  constructor
  · rintro ⟨commit, member, found, held, rfl, rfl⟩
    exact ⟨commit, member, rfl, held⟩
  · rintro ⟨commit, member, rfl, held⟩
    exact ⟨commit, member, op, held, rfl, rfl⟩

theorem pairwise_writesOf {history : List (Commit Data)}
    (sorted : history.Pairwise fun first second => first.commitTs < second.commitTs)
    (record : RecordId) :
    (writesOf history record).Pairwise fun first second => first.1 < second.1 := by
  apply sorted.filterMap
  intro first second before write found other otherFound
  obtain ⟨op, -, rfl⟩ := Option.map_eq_some_iff.mp found
  obtain ⟨otherOp, -, rfl⟩ := Option.map_eq_some_iff.mp otherFound
  exact before

theorem commit_unique {history : List (Commit Data)}
    (sorted : history.Pairwise fun first second => first.commitTs < second.commitTs)
    {first second : Commit Data} (member : first ∈ history) (other : second ∈ history)
    (same : first.commitTs = second.commitTs) : first = second := by
  have : Std.Symm fun first second : Commit Data => first.commitTs ≠ second.commitTs :=
    ⟨fun _ _ => Ne.symm⟩
  by_contra distinct
  exact (sorted.imp fun before => before.ne).forall member other distinct same

/-- The last write up to a timestamp decides what the snapshot holds. -/
theorem snapshotRead_valueAt {history : List (Commit Data)}
    (sorted : history.Pairwise fun first second => first.commitTs < second.commitTs)
    (record : RecordId) (ts : Timestamp) :
    SnapshotRead history record ts (valueAt (writesOf history record) ts) := by
  have order := pairwise_writesOf sorted record
  unfold valueAt
  cases found : lastWith (fun write => write.1 ≤ ts) (writesOf history record) with
  | none =>
      rintro putTs data ⟨⟨commit, member, rfl, held⟩, reached, -⟩
      have write : (commit.commitTs, .put data) ∈ writesOf history record :=
        mem_writesOf.mpr ⟨commit, member, rfl, held⟩
      have away := lastWith_eq_none.mp found _ write
      exact absurd reached (by simpa using away)
  | some write =>
      obtain ⟨front, back, split, reached, later⟩ := lastWith_eq_some found
      obtain ⟨lastTs, op⟩ := write
      have within : lastTs ≤ ts := by simpa using reached
      have last : ∀ other ∈ writesOf history record, other.1 ≤ ts → other.1 ≤ lastTs := by
        intro other member below
        rw [split] at member order
        rcases List.mem_append.mp member with before | after
        · exact (((List.pairwise_append.mp order).2.2 other before) _ List.mem_cons_self).le
        · rcases List.mem_cons.mp after with rfl | after
          · exact le_rfl
          · exact absurd below (by simpa using later other after)
      have member : (lastTs, op) ∈ writesOf history record := by
        rw [split]
        simp
      cases op with
      | put data =>
          obtain ⟨commit, inHistory, atTs, held⟩ := mem_writesOf.mp member
          refine ⟨lastTs, ⟨⟨commit, inHistory, atTs, held⟩, within, ?_⟩, ?_⟩
          · intro other otherMember otherData otherHeld below
            exact last _ (mem_writesOf.mpr ⟨other, otherMember, rfl, otherHeld⟩) below
          · rintro ⟨other, otherMember, otherHeld, after, below⟩
            have before := last _ (mem_writesOf.mpr ⟨other, otherMember, rfl, otherHeld⟩) below
            exact absurd after before.not_gt
      | delete =>
          obtain ⟨commit, inHistory, atTs, held⟩ := mem_writesOf.mp member
          rintro putTs data ⟨⟨other, otherMember, rfl, otherHeld⟩, below, -⟩
          have before := last _ (mem_writesOf.mpr ⟨other, otherMember, rfl, otherHeld⟩) below
          refine ⟨commit, inHistory, held, lt_of_le_of_ne (atTs ▸ before) ?_, atTs ▸ within⟩
          -- A commit writes a record once, so the put and the delete are of different commits.
          intro same
          rw [commit_unique sorted inHistory otherMember same.symm, otherHeld] at held
          cases held

namespace World

variable [LE Bound] [DecidableLE Bound]

theorem sound_run {actions : List (Action Data Bound)}
    (closes : AllMeet step ClosesAll new actions) :
    (actions.foldl step new : World Data Bound).Sound :=
  AllMeet.invariant (motive := Sound) (fun _ action sound => sound_step sound action) sound_new
    closes

/-- In every run whose commits find no open version before the last one of a record that they delete,
a running transaction reads its snapshot of every record that it has not written. -/
theorem getRecord_snapshotRead {actions : List (Action Data Bound)}
    (closes : AllMeet step ClosesAll new actions) {txId : TxId} {session : Session Data Bound}
    (running : (actions.foldl step new).sessions[txId]? = some session) {record : RecordId}
    (unwritten : session.transaction.writeSet[record]? = none) :
    ∃ result, session.transaction.getRecord (actions.foldl step new).store record = .ok result ∧
      SnapshotRead (actions.foldl step new).history record session.transaction.readTs result := by
  have sound := sound_run closes
  have read := sound.getRecord_eq running record
  rw [unwritten] at read
  exact ⟨_, read, snapshotRead_valueAt sound.history record session.transaction.readTs⟩

/-- A record is put and deleted, put once more, and read. -/
def replacedRun : List (Action Nat Nat) :=
  [.begin .snapshot, .call 1 (.putRecord 1 10), .call 1 .commit,
    .begin .snapshot, .call 2 (.deleteRecord 1), .call 2 .commit,
    .begin .snapshot, .call 3 (.putRecord 1 20), .call 3 .commit, .gc,
    .begin .snapshot]

theorem getRecord_snapshotRead_replacedRun :
    ∃ session, (replacedRun.foldl step new).sessions[4]? = some session ∧
      ∃ result,
        session.transaction.getRecord (replacedRun.foldl step new).store 1 = .ok result ∧
        SnapshotRead (replacedRun.foldl step new).history 1 session.transaction.readTs result := by
  have closes : AllMeet step ClosesAll new replacedRun := by decide +kernel
  have begun : (replacedRun.foldl step new).sessions[4]?.isSome := by decide +kernel
  obtain ⟨session, running⟩ := Option.isSome_iff_exists.mp begun
  have clean : (replacedRun.foldl step new).sessions[4]?.all fun session =>
      session.transaction.writeSet[1]? = none := by decide +kernel
  rw [running] at clean
  exact ⟨session, running, getRecord_snapshotRead closes running (by simpa using clean)⟩

/-- A record is put, put again and deleted by three transactions, and read by a fourth. -/
def overwrittenRun : List (Action Nat Nat) :=
  [.begin .snapshot, .call 1 (.putRecord 1 10), .call 1 .commit,
    .begin .snapshot, .call 2 (.putRecord 1 20), .call 2 .commit,
    .begin .snapshot, .call 3 (.deleteRecord 1), .call 3 .commit,
    .begin .snapshot]

/-- The delete closes the second version only, and the first one is read. -/
theorem not_snapshotRead_overwrittenRun :
    ∃ session, (overwrittenRun.foldl step new).sessions[4]? = some session ∧
      session.transaction.writeSet[1]? = none ∧
      ¬∃ result,
        session.transaction.getRecord (overwrittenRun.foldl step new).store 1 = .ok result ∧
        SnapshotRead (overwrittenRun.foldl step new).history 1 session.transaction.readTs result := by
  have begun : (overwrittenRun.foldl step new).sessions[4]?.isSome := by decide +kernel
  obtain ⟨session, running⟩ := Option.isSome_iff_exists.mp begun
  have clean : (overwrittenRun.foldl step new).sessions[4]?.all fun session =>
      session.transaction.writeSet[1]? = none ∧ session.transaction.readTs = 4 ∧
        (session.transaction.getRecord (overwrittenRun.foldl step new).store 1).toOption =
          some (some 10) := by decide +kernel
  rw [running] at clean
  obtain ⟨unwritten, readTs, read⟩ : session.transaction.writeSet[1]? = none ∧
      session.transaction.readTs = 4 ∧
        (session.transaction.getRecord (overwrittenRun.foldl step new).store 1).toOption =
          some (some 10) := by simpa using clean
  refine ⟨session, running, unwritten, ?_⟩
  rintro ⟨result, isResult, snapshot⟩
  rw [isResult] at read
  cases read
  obtain ⟨putTs, ⟨⟨commit, member, rfl, held⟩, -, last⟩, -⟩ := snapshot
  have first : ∀ commit ∈ (overwrittenRun.foldl step new).history,
      commit.writeSet[1]? = some (.put 10) → commit.commitTs = 2 := by decide +kernel
  have second : ∃ commit ∈ (overwrittenRun.foldl step new).history,
      commit.writeSet[1]? = some (.put 20) ∧ commit.commitTs = 3 := by decide +kernel
  obtain ⟨other, otherMember, otherHeld, otherTs⟩ := second
  have order := last other otherMember 20 otherHeld (by rw [otherTs, readTs]; decide)
  rw [first commit member held, otherTs] at order
  exact absurd order (by decide)

end World

end JouleDB.Amorphic
