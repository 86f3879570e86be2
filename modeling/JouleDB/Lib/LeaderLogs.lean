import Mathlib.Data.Finset.Basic
import Mathlib.Data.List.Infix

/-!
# Logs that are replicated from leaders

Terms are numbered, and a term has at most one leader.  A chronicle keeps, for every term that
had one, the log its leader has built, and who has confirmed which front part of it.  Logs are
derived from the chronicle if each of their entries stands where the leader of the entry's term
has put it, behind the same entries.

What a quorum has confirmed is committed.  If every leader was elected by a quorum of voters with
no more recent logs, and voters keep what they have confirmed unless a later leader contradicts
it, then all later leaders start from logs that hold what is committed.
-/

namespace JouleDB

/-- Lists that differ at some position. -/
def Conflict {α : Type*} (first second : List α) : Prop :=
  ¬ first <+: second ∧ ¬ second <+: first

theorem Conflict.mono {α : Type*} {first second longer : List α} (conflict : Conflict first second)
    (grows : second <+: longer) : Conflict first longer := by
  constructor
  · intro front
    rcases List.prefix_or_prefix_of_prefix front grows with shorter | shorter
    · exact conflict.1 shorter
    · exact conflict.2 shorter
  · exact fun front => conflict.2 (grows.trans front)

/-- What a replica keeps of a log when it takes over a segment of another one: nothing changes
if it has the segment already, otherwise it is left with the segment. -/
def Merged {α : Type*} (log segment result : List α) : Prop :=
  segment <+: log ∧ result = log ∨ ¬ segment <+: log ∧ result = segment

/-- A front part survives the merge unless the source of the segment contradicts it. -/
theorem Merged.keeps {α : Type*} {log segment result source front : List α}
    (merged : Merged log segment result) (slice : segment <+: source) (inside : front <+: log) :
    front <+: result ∨ Conflict front source := by
  rcases merged with ⟨_, rfl⟩ | ⟨missing, rfl⟩
  · exact .inl inside
  · by_cases kept : front <+: result
    · exact .inl kept
    · right
      constructor
      · intro below
        rcases List.prefix_or_prefix_of_prefix below slice with shorter | shorter
        · exact kept shorter
        · exact missing (shorter.trans inside)
      · exact fun above => missing ((slice.trans above).trans inside)

theorem Merged.has_segment {α : Type*} {log segment result : List α}
    (merged : Merged log segment result) : segment <+: result := by
  rcases merged with ⟨present, rfl⟩ | ⟨_, rfl⟩
  · exact present
  · exact List.prefix_refl _

/-- The leadership of a term: who voted, the log it started from and the log so far. -/
structure Reign (ν ε : Type*) where
  leader : ν
  voters : Finset ν
  base : List ε
  log : List ε

/-- The leaders of all terms, and the front parts of their logs that nodes have confirmed. -/
structure Chronicle (ν ε : Type*) where
  reigns : Nat → Option (Reign ν ε)
  acked : ν → Nat → List ε → Prop

namespace Chronicle

variable {ν ε : Type*} (term : ε → Nat) (quorum : Finset ν → Prop) (chronicle : Chronicle ν ε)

/-- Every entry stands where the leader of its term has put it, behind the same entries. -/
def Derived (log : List ε) : Prop :=
  ∀ position entry, log[position]? = some entry →
    ∃ reign, chronicle.reigns (term entry) = some reign ∧ log.take (position + 1) <+: reign.log

/-- The node has confirmed a front part of the log of the term. -/
def Confirmed (node : ν) (ofTerm : Nat) (front : List ε) : Prop :=
  ∃ whole, chronicle.acked node ofTerm whole ∧ front <+: whole

/-- A leader of a term after the given one and below the bound contradicts the front part. -/
def Broken (ofTerm : Nat) (front : List ε) (bound : Nat) : Prop :=
  ∃ later reign, ofTerm < later ∧ later < bound ∧ chronicle.reigns later = some reign ∧
    Conflict front reign.log

/-- The log has what the node has confirmed in the terms below the bound, as far as it was not
contradicted. -/
def Keeps (node : ν) (bound : Nat) (log : List ε) : Prop :=
  ∀ ofTerm < bound, ∀ front, chronicle.Confirmed node ofTerm front →
    front <+: log ∨ chronicle.Broken ofTerm front bound

/-- The term of the last entry. -/
def lastTerm (log : List ε) : Nat := (log.getLast?.map term).getD 0

/-- The first log is at least as up to date as the second. -/
def UpToDate (first second : List ε) : Prop :=
  lastTerm term second < lastTerm term first ∨
    lastTerm term second = lastTerm term first ∧ second.length ≤ first.length

/-- The chronicle of a system that elects leaders by quorums and keeps what is confirmed. -/
structure Sound : Prop where
  zero : chronicle.reigns 0 = none
  base : ∀ {ofTerm reign}, chronicle.reigns ofTerm = some reign → reign.base <+: reign.log
  older : ∀ {ofTerm reign}, chronicle.reigns ofTerm = some reign →
    ∀ entry ∈ reign.base, term entry < ofTerm
  own : ∀ {ofTerm reign}, chronicle.reigns ofTerm = some reign →
    ∀ position entry, reign.base.length ≤ position → reign.log[position]? = some entry →
      term entry = ofTerm
  derived : ∀ {ofTerm reign}, chronicle.reigns ofTerm = some reign →
    chronicle.Derived term reign.log
  acked : ∀ {node ofTerm front}, chronicle.acked node ofTerm front →
    ∃ reign, chronicle.reigns ofTerm = some reign ∧ front <+: reign.log
  quorum : ∀ {ofTerm reign}, chronicle.reigns ofTerm = some reign → quorum reign.voters
  elected : ∀ {ofTerm reign}, chronicle.reigns ofTerm = some reign → ∀ voter ∈ reign.voters,
    ∃ log, chronicle.Derived term log ∧ UpToDate term reign.base log ∧
      chronicle.Keeps voter ofTerm log

/-- A front part of the log of a term is committed: it ends with an entry of that term, and a
quorum has confirmed it. -/
def Committed (ofTerm : Nat) (front : List ε) : Prop :=
  ∃ reign older entry voters, chronicle.reigns ofTerm = some reign ∧ front <+: reign.log ∧
    front = older ++ [entry] ∧ term entry = ofTerm ∧ quorum voters ∧
    ∀ voter ∈ voters, chronicle.Confirmed voter ofTerm front

/-- A list is known to be committed in a term, or in an earlier one. -/
def Chosen (ofTerm : Nat) (front : List ε) : Prop :=
  ∃ earlier ≤ ofTerm, ∃ whole, chronicle.Committed term quorum earlier whole ∧ front <+: whole

variable {term quorum chronicle}

section Matching

variable {log front first second : List ε} {ofTerm position : Nat} {entry : ε}

theorem Derived.of_isPrefix (derived : chronicle.Derived term log) (shorter : front <+: log) :
    chronicle.Derived term front := by
  obtain ⟨rest, rfl⟩ := shorter
  intro position entry found
  obtain ⟨inside, _⟩ := List.getElem?_eq_some_iff.mp found
  have same : (front ++ rest)[position]? = some entry := by
    rw [List.getElem?_append_left inside]
    exact found
  obtain ⟨reign, recorded, before⟩ := derived position entry same
  rw [List.take_append_of_le_length inside] at before
  exact ⟨reign, recorded, before⟩

/-- Logs that have entries of the same term at a position agree up to it. -/
theorem Derived.matching (one : chronicle.Derived term first) (two : chronicle.Derived term second)
    {left right : ε} (inFirst : first[position]? = some left)
    (inSecond : second[position]? = some right) (same : term left = term right) :
    first.take (position + 1) = second.take (position + 1) := by
  obtain ⟨reign, recorded, front⟩ := one position left inFirst
  obtain ⟨other, alsoRecorded, behind⟩ := two position right inSecond
  rw [same, alsoRecorded] at recorded
  cases recorded
  obtain ⟨inside, _⟩ := List.getElem?_eq_some_iff.mp inFirst
  obtain ⟨within, _⟩ := List.getElem?_eq_some_iff.mp inSecond
  have lengths : (first.take (position + 1)).length = (second.take (position + 1)).length := by
    rw [List.length_take_of_le inside, List.length_take_of_le within]
  exact (List.prefix_of_prefix_length_le front behind (le_of_eq lengths)).eq_of_length lengths

/-- A log that is not empty is a front part of the log of its last term. -/
theorem Derived.exists_of_ne_nil (derived : chronicle.Derived term log) (nonempty : log ≠ []) :
    ∃ older entry reign, log = older ++ [entry] ∧ lastTerm term log = term entry ∧
      chronicle.reigns (term entry) = some reign ∧ log <+: reign.log := by
  obtain ⟨older, entry, rfl⟩ := List.eq_nil_or_concat log |>.resolve_left nonempty
  rw [List.concat_eq_append] at derived ⊢
  obtain ⟨reign, recorded, front⟩ := derived older.length entry (by simp)
  rw [List.take_of_length_le (by simp)] at front
  exact ⟨older, entry, reign, rfl, by simp [lastTerm], recorded, front⟩

/-- The log of a term has no entries of later terms. -/
theorem Sound.term_le (sound : chronicle.Sound term quorum) {reign : Reign ν ε}
    (recorded : chronicle.reigns ofTerm = some reign) (member : entry ∈ reign.log) :
    term entry ≤ ofTerm := by
  obtain ⟨position, found⟩ := List.mem_iff_getElem?.mp member
  by_cases old : position < reign.base.length
  · obtain ⟨rest, same⟩ := sound.base recorded
    rw [← same, List.getElem?_append_left old] at found
    exact le_of_lt (sound.older recorded entry (List.mem_of_getElem? found))
  · exact le_of_eq (sound.own recorded position entry (le_of_not_gt old) found)

/-- Entries of a term lie behind the log that its leader started from. -/
theorem Sound.base_shorter (sound : chronicle.Sound term quorum) {reign : Reign ν ε}
    {older : List ε} (recorded : chronicle.reigns ofTerm = some reign)
    (inside : older ++ [entry] <+: reign.log) (own : term entry = ofTerm) :
    reign.base <+: older ++ [entry] := by
  apply List.prefix_of_prefix_length_le (sound.base recorded) inside
  by_contra longer
  have inBase := List.prefix_of_prefix_length_le inside (sound.base recorded) (by omega)
  have earlier := sound.older recorded entry (inBase.subset (by simp))
  omega

end Matching

section Completeness

/-- A log that is at least as up to date as one with a committed front has it too, if the leaders
in between have. -/
theorem Sound.upToDate (sound : chronicle.Sound term quorum) {ofTerm bound : Nat}
    {older base log : List ε} {entry : ε} {reign : Reign ν ε} (own : term entry = ofTerm)
    (recorded : chronicle.reigns ofTerm = some reign)
    (baseDerived : chronicle.Derived term base) (below : ∀ other ∈ base, term other < bound)
    (derived : chronicle.Derived term log) (upToDate : UpToDate term base log)
    (kept : older ++ [entry] <+: log)
    (later : ∀ {between other}, ofTerm < between → between < bound →
      chronicle.reigns between = some other → older ++ [entry] <+: other.base) :
    older ++ [entry] <+: base := by
  have nonempty : log ≠ [] := by
    rintro rfl
    exact absurd (List.prefix_nil.mp kept) (by simp)
  obtain ⟨logOlder, logLast, logReign, _, logTerm, logRecorded, logFront⟩ :=
    derived.exists_of_ne_nil nonempty
  have reached : ofTerm ≤ term logLast := by
    rw [← own]
    exact sound.term_le logRecorded ((kept.trans logFront).subset (by simp))
  have positive : ofTerm ≠ 0 := by
    rintro rfl
    rw [sound.zero] at recorded
    exact absurd recorded (by simp)
  have baseNonempty : base ≠ [] := by
    rintro rfl
    have nothing : lastTerm term ([] : List ε) = 0 := rfl
    rw [UpToDate, nothing, logTerm] at upToDate
    omega
  obtain ⟨baseOlder, baseLast, baseReign, baseEq, baseTerm, baseRecorded, baseFront⟩ :=
    baseDerived.exists_of_ne_nil baseNonempty
  rw [UpToDate, logTerm, baseTerm] at upToDate
  rcases upToDate with higher | ⟨same, longer⟩
  · have under : term baseLast < bound := below baseLast (by rw [baseEq]; simp)
    have inBase := later (by omega) under baseRecorded
    rw [baseEq] at baseFront ⊢
    exact inBase.trans (sound.base_shorter baseRecorded baseFront rfl)
  · rw [same, baseRecorded] at logRecorded
    cases logRecorded
    exact kept.trans (List.prefix_of_prefix_length_le logFront baseFront longer)

variable (meets : ∀ first second, quorum first → quorum second → ∃ voter ∈ first, voter ∈ second)

include meets

/-- Leaders of later terms start from logs that hold what is committed. -/
theorem Sound.complete (sound : chronicle.Sound term quorum) {ofTerm later : Nat}
    {front : List ε} {reign : Reign ν ε}
    (committed : chronicle.Committed term quorum ofTerm front) (after : ofTerm < later)
    (recorded : chronicle.reigns later = some reign) : front <+: reign.base := by
  induction later using Nat.strong_induction_on generalizing reign with
  | _ later ih =>
      obtain ⟨earlier, older, entry, voters, earlierRecorded, inside, rfl, own, isQuorum,
        confirmed⟩ := id committed
      obtain ⟨voter, acknowledged, voted⟩ := meets _ _ isQuorum (sound.quorum recorded)
      obtain ⟨log, derived, upToDate, keeps⟩ := sound.elected recorded voter voted
      have kept : older ++ [entry] <+: log := by
        rcases keeps ofTerm after _ (confirmed voter acknowledged) with kept | broken
        · exact kept
        · obtain ⟨between, other, above, below, otherRecorded, conflict⟩ := broken
          have inBase := ih between below above otherRecorded
          exact absurd (inBase.trans (sound.base otherRecorded)) conflict.1
      exact sound.upToDate own earlierRecorded
        ((sound.derived recorded).of_isPrefix (sound.base recorded)) (sound.older recorded)
        derived upToDate kept fun above below otherRecorded => ih _ below above otherRecorded

/-- A leader has what was committed before and in its term. -/
theorem Sound.chosen_isPrefix (sound : chronicle.Sound term quorum) {ofTerm later : Nat}
    {front : List ε} {reign : Reign ν ε} (chosen : chronicle.Chosen term quorum ofTerm front)
    (after : ofTerm ≤ later) (recorded : chronicle.reigns later = some reign) :
    front <+: reign.log := by
  obtain ⟨earlier, before, whole, committed, inside⟩ := chosen
  apply inside.trans
  rcases Nat.lt_or_ge earlier later with strict | same
  · exact (sound.complete meets committed strict recorded).trans (sound.base recorded)
  · have equal : earlier = later := by omega
    obtain ⟨other, _, _, _, otherRecorded, front, _⟩ := committed
    rw [equal, recorded] at otherRecorded
    cases otherRecorded
    exact front

/-- Of two committed lists one continues the other. -/
theorem Sound.chosen_comparable (sound : chronicle.Sound term quorum) {one two : Nat}
    {first second : List ε} (firstChosen : chronicle.Chosen term quorum one first)
    (secondChosen : chronicle.Chosen term quorum two second) :
    first <+: second ∨ second <+: first := by
  obtain ⟨firstTerm, _, firstWhole, firstCommitted, inFirst⟩ := firstChosen
  obtain ⟨secondTerm, _, secondWhole, secondCommitted, inSecond⟩ := secondChosen
  obtain ⟨firstReign, _, _, _, firstRecorded, firstFront, _⟩ := id firstCommitted
  obtain ⟨secondReign, _, _, _, secondRecorded, secondFront, _⟩ := id secondCommitted
  rcases Nat.le_total firstTerm secondTerm with before | after
  · have front := sound.chosen_isPrefix meets ⟨firstTerm, le_refl _, _, firstCommitted, inFirst⟩
      before secondRecorded
    exact List.prefix_or_prefix_of_prefix front (inSecond.trans secondFront)
  · have front := sound.chosen_isPrefix meets ⟨secondTerm, le_refl _, _, secondCommitted, inSecond⟩
      after firstRecorded
    exact List.prefix_or_prefix_of_prefix (inFirst.trans firstFront) front

end Completeness

section Extension

/-- What a chronicle may become by something that one node does in one term. -/
structure Extends (node : ν) (now : Nat) (before after : Chronicle ν ε) : Prop where
  reigns : ∀ {ofTerm reign}, before.reigns ofTerm = some reign →
    ∃ log, after.reigns ofTerm = some { reign with log := log } ∧ reign.log <+: log ∧
      (reign.leader ≠ node → log = reign.log)
  fresh : ∀ {ofTerm reign}, after.reigns ofTerm = some reign →
    (before.reigns ofTerm).isSome ∨ ofTerm = now ∧ reign.leader = node
  acked : ∀ {other ofTerm front}, before.acked other ofTerm front →
    after.acked other ofTerm front
  new : ∀ {other ofTerm front}, after.acked other ofTerm front →
    before.acked other ofTerm front ∨ other = node ∧ ofTerm = now

variable {before after : Chronicle ν ε} {node : ν} {now : Nat}

theorem Extends.refl (node : ν) (now : Nat) (chronicle : Chronicle ν ε) :
    Extends node now chronicle chronicle where
  reigns recorded := ⟨_, recorded, List.prefix_refl _, fun _ => rfl⟩
  fresh recorded := .inl (Option.isSome_iff_exists.mpr ⟨_, recorded⟩)
  acked confirmed := confirmed
  new confirmed := .inl confirmed

theorem Extends.trans {last : Chronicle ν ε} (one : Extends node now before after)
    (two : Extends node now after last) : Extends node now before last := by
  constructor
  · intro ofTerm reign recorded
    obtain ⟨log, middle, grows, same⟩ := one.reigns recorded
    obtain ⟨longer, final, growsMore, sameAgain⟩ := two.reigns middle
    exact ⟨longer, final, grows.trans growsMore,
      fun other => (sameAgain other).trans (same other)⟩
  · intro ofTerm reign recorded
    rcases two.fresh recorded with known | new
    · obtain ⟨middle, middleRecorded⟩ := Option.isSome_iff_exists.mp known
      rcases one.fresh middleRecorded with old | ⟨rfl, leads⟩
      · exact .inl old
      · obtain ⟨log, final, _⟩ := two.reigns middleRecorded
        rw [recorded] at final
        cases final
        exact .inr ⟨rfl, leads⟩
    · exact .inr new
  · exact fun confirmed => two.acked (one.acked confirmed)
  · intro other ofTerm front confirmed
    rcases two.new confirmed with old | new
    · exact one.new old
    · exact .inr new

variable {log front : List ε} {ofTerm bound : Nat}

theorem Derived.mono (extension : Extends node now before after)
    (derived : before.Derived term log) : after.Derived term log := by
  intro position entry found
  obtain ⟨reign, recorded, front⟩ := derived position entry found
  obtain ⟨longer, later, grows, _⟩ := extension.reigns recorded
  exact ⟨_, later, front.trans grows⟩

theorem Confirmed.mono {other : ν} (extension : Extends node now before after)
    (confirmed : before.Confirmed other ofTerm front) : after.Confirmed other ofTerm front := by
  obtain ⟨whole, acked, inside⟩ := confirmed
  exact ⟨whole, extension.acked acked, inside⟩

theorem Broken.mono (extension : Extends node now before after)
    (broken : before.Broken ofTerm front bound) : after.Broken ofTerm front bound := by
  obtain ⟨later, reign, above, below, recorded, conflict⟩ := broken
  obtain ⟨longer, known, grows, _⟩ := extension.reigns recorded
  exact ⟨later, _, above, below, known, conflict.mono grows⟩

/-- What a log keeps is not affected by others, nor by what the node confirms later. -/
theorem Keeps.mono {other : ν} (extension : Extends node now before after)
    (apart : other = node → bound ≤ now) (keeps : before.Keeps other bound log) :
    after.Keeps other bound log := by
  rintro ofTerm below front ⟨whole, acked, inside⟩
  rcases extension.new acked with old | ⟨same, rfl⟩
  · rcases keeps ofTerm below front ⟨whole, old, inside⟩ with kept | broken
    · exact .inl kept
    · exact .inr (broken.mono extension)
  · exact absurd below (not_lt_of_ge (apart same))

theorem Committed.mono (extension : Extends node now before after)
    (committed : before.Committed term quorum ofTerm front) :
    after.Committed term quorum ofTerm front := by
  obtain ⟨reign, older, entry, voters, recorded, inside, shape, own, isQuorum, confirmed⟩ :=
    committed
  obtain ⟨longer, known, grows, _⟩ := extension.reigns recorded
  exact ⟨_, older, entry, voters, known, inside.trans grows, shape, own, isQuorum,
    fun voter member => (confirmed voter member).mono extension⟩

theorem Chosen.mono (extension : Extends node now before after)
    (chosen : before.Chosen term quorum ofTerm front) : after.Chosen term quorum ofTerm front := by
  obtain ⟨earlier, reached, whole, committed, inside⟩ := chosen
  exact ⟨earlier, reached, whole, committed.mono extension, inside⟩

theorem Chosen.of_le {later : Nat} (chosen : chronicle.Chosen term quorum ofTerm front)
    (after : ofTerm ≤ later) : chronicle.Chosen term quorum later front := by
  obtain ⟨earlier, reached, rest⟩ := chosen
  exact ⟨earlier, reached.trans after, rest⟩

theorem Chosen.of_isPrefix {shorter : List ε} (chosen : chronicle.Chosen term quorum ofTerm front)
    (inside : shorter <+: front) : chronicle.Chosen term quorum ofTerm shorter := by
  obtain ⟨earlier, reached, whole, committed, front⟩ := chosen
  exact ⟨earlier, reached, whole, committed, inside.trans front⟩

theorem Broken.of_le {further : Nat} (broken : chronicle.Broken ofTerm front bound)
    (wider : bound ≤ further) : chronicle.Broken ofTerm front further := by
  obtain ⟨later, reign, above, below, rest⟩ := broken
  exact ⟨later, reign, above, lt_of_lt_of_le below wider, rest⟩

theorem Keeps.raise {further : Nat} (keeps : chronicle.Keeps node bound log)
    (reached : ∀ {ofTerm front}, chronicle.acked node ofTerm front → ofTerm < bound)
    (wider : bound ≤ further) : chronicle.Keeps node further log := by
  rintro ofTerm _ front ⟨whole, acked, inside⟩
  rcases keeps ofTerm (reached acked) front ⟨whole, acked, inside⟩ with kept | broken
  · exact .inl kept
  · exact .inr (broken.of_le wider)

/-- A term without a leader contradicts nothing. -/
theorem Keeps.lower (keeps : chronicle.Keeps node (bound + 1) log)
    (vacant : chronicle.reigns bound = none) : chronicle.Keeps node bound log := by
  intro ofTerm below front confirmed
  rcases keeps ofTerm (Nat.lt_succ_of_lt below) front confirmed with kept | broken
  · exact .inl kept
  · obtain ⟨later, reign, above, under, recorded, conflict⟩ := broken
    have distinct : later ≠ bound := by
      rintro rfl
      rw [vacant] at recorded
      exact absurd recorded (by simp)
    exact .inr ⟨later, reign, above, by omega, recorded, conflict⟩

/-- Taking over a segment of the log of the current term. -/
theorem Keeps.merge (sound : chronicle.Sound term quorum) {segment result : List ε}
    {reign : Reign ν ε} (keeps : chronicle.Keeps node (now + 1) log)
    (recorded : chronicle.reigns now = some reign) (merged : Merged log segment result)
    (slice : segment <+: reign.log) : chronicle.Keeps node (now + 1) result := by
  intro ofTerm below front confirmed
  rcases keeps ofTerm below front confirmed with kept | broken
  · rcases merged.keeps slice kept with survives | conflict
    · exact .inl survives
    · rcases Nat.lt_or_ge ofTerm now with earlier | current
      · exact .inr ⟨now, reign, earlier, Nat.lt_succ_self _, recorded, conflict⟩
      · have same : ofTerm = now := by omega
        obtain ⟨whole, acked, inside⟩ := confirmed
        obtain ⟨other, otherRecorded, front⟩ := sound.acked acked
        rw [same, recorded] at otherRecorded
        cases otherRecorded
        exact absurd (inside.trans front) conflict.1
  · exact .inr broken

/-- A node that confirms a front part of its log. -/
theorem Keeps.confirm (extension : Extends node now before after)
    (own : ∀ {ofTerm whole}, after.acked node ofTerm whole →
      before.acked node ofTerm whole ∨ whole <+: log)
    (keeps : before.Keeps node bound log) : after.Keeps node bound log := by
  rintro ofTerm below front ⟨whole, acked, inside⟩
  rcases own acked with old | new
  · rcases keeps ofTerm below front ⟨whole, old, inside⟩ with kept | broken
    · exact .inl kept
    · exact .inr (broken.mono extension)
  · exact .inl (inside.trans new)

theorem Keeps.of_isPrefix {longer : List ε} (keeps : chronicle.Keeps node bound log)
    (grows : log <+: longer) : chronicle.Keeps node bound longer := by
  intro ofTerm below front confirmed
  rcases keeps ofTerm below front confirmed with kept | broken
  · exact .inl (kept.trans grows)
  · exact .inr broken

end Extension

section Operations

variable {node : ν} {now : Nat} {reign : Reign ν ε} {log : List ε}

/-- The node has not voted in a later term. -/
def Settled (chronicle : Chronicle ν ε) (node : ν) (now : Nat) : Prop :=
  ∀ later reign, chronicle.reigns later = some reign → node ∈ reign.voters → later ≤ now

/-- A node confirms a front part of the log of a term. -/
def acknowledge (chronicle : Chronicle ν ε) (node : ν) (now : Nat) (whole : List ε) :
    Chronicle ν ε where
  reigns := chronicle.reigns
  acked other ofTerm front :=
    chronicle.acked other ofTerm front ∨ other = node ∧ ofTerm = now ∧ front = whole

/-- A leader of a term is recorded with a log. -/
def record (chronicle : Chronicle ν ε) (now : Nat) (reign : Reign ν ε) : Chronicle ν ε where
  reigns ofTerm := if ofTerm = now then some reign else chronicle.reigns ofTerm
  acked := chronicle.acked

theorem extends_acknowledge (chronicle : Chronicle ν ε) (node : ν) (now : Nat) (whole : List ε) :
    Extends node now chronicle (chronicle.acknowledge node now whole) where
  reigns recorded := ⟨_, recorded, List.prefix_refl _, fun _ => rfl⟩
  fresh recorded := .inl (Option.isSome_iff_exists.mpr ⟨_, recorded⟩)
  acked confirmed := .inl confirmed
  new confirmed := by
    rcases confirmed with old | ⟨same, current, _⟩
    · exact .inl old
    · exact .inr ⟨same, current⟩

/-- What the voters of the recorded leaders have kept is not affected by a step of a node that
has not voted in a later term. -/
theorem Sound.elected_mono {after : Chronicle ν ε} (sound : chronicle.Sound term quorum)
    (extension : Extends node now chronicle after) (settled : chronicle.Settled node now)
    {ofTerm : Nat} (recorded : chronicle.reigns ofTerm = some reign) :
    ∀ voter ∈ reign.voters, ∃ log, after.Derived term log ∧ UpToDate term reign.base log ∧
      after.Keeps voter ofTerm log := by
  intro voter voted
  obtain ⟨log, derived, upToDate, keeps⟩ := sound.elected recorded voter voted
  refine ⟨log, derived.mono extension, upToDate, keeps.mono extension ?_⟩
  rintro rfl
  exact settled _ _ recorded voted

theorem Sound.acknowledge (sound : chronicle.Sound term quorum)
    (recorded : chronicle.reigns now = some reign) (inside : log <+: reign.log)
    (settled : chronicle.Settled node now) :
    (chronicle.acknowledge node now log).Sound term quorum where
  zero := sound.zero
  base := sound.base
  older := sound.older
  own := sound.own
  derived known := (sound.derived known).mono (extends_acknowledge chronicle node now log)
  acked confirmed := by
    rcases confirmed with old | ⟨_, rfl, rfl⟩
    · exact sound.acked old
    · exact ⟨reign, recorded, inside⟩
  quorum := sound.quorum
  elected := sound.elected_mono (extends_acknowledge chronicle node now log) settled

theorem record_self (chronicle : Chronicle ν ε) (now : Nat) (reign : Reign ν ε) :
    (chronicle.record now reign).reigns now = some reign := if_pos rfl

theorem record_of_ne (chronicle : Chronicle ν ε) (reign : Reign ν ε) {ofTerm : Nat}
    (other : ofTerm ≠ now) :
    (chronicle.record now reign).reigns ofTerm = chronicle.reigns ofTerm := if_neg other

theorem extends_record (chronicle : Chronicle ν ε) (now : Nat) (reign : Reign ν ε)
    (grows : ∀ old, chronicle.reigns now = some old →
      ∃ log, reign = { old with log := log } ∧ old.log <+: log) :
    Extends reign.leader now chronicle (chronicle.record now reign) := by
  constructor
  · intro ofTerm old recorded
    by_cases current : ofTerm = now
    · subst current
      obtain ⟨log, rfl, longer⟩ := grows old recorded
      exact ⟨log, record_self _ _ _, longer, fun other => absurd rfl other⟩
    · rw [record_of_ne chronicle reign current]
      exact ⟨old.log, recorded, List.prefix_refl _, fun _ => rfl⟩
  · intro ofTerm other recorded
    by_cases current : ofTerm = now
    · rw [current, record_self] at recorded
      cases recorded
      exact .inr ⟨current, rfl⟩
    · rw [record_of_ne chronicle reign current] at recorded
      exact .inl (Option.isSome_iff_exists.mpr ⟨_, recorded⟩)
  · exact fun confirmed => confirmed
  · exact fun confirmed => .inl confirmed

/-- Recording a leader, with all that has to be shown for its log. -/
theorem Sound.record (sound : chronicle.Sound term quorum) (positive : now ≠ 0)
    (grows : ∀ old, chronicle.reigns now = some old →
      ∃ log, reign = { old with log := log } ∧ old.log <+: log)
    (settled : chronicle.Settled reign.leader now)
    (base : reign.base <+: reign.log) (older : ∀ entry ∈ reign.base, term entry < now)
    (own : ∀ position entry, reign.base.length ≤ position → reign.log[position]? = some entry →
      term entry = now)
    (derived : (chronicle.record now reign).Derived term reign.log)
    (isQuorum : quorum reign.voters)
    (elected : ∀ voter ∈ reign.voters, ∃ log, chronicle.Derived term log ∧
      UpToDate term reign.base log ∧ chronicle.Keeps voter now log) :
    (chronicle.record now reign).Sound term quorum := by
  have extension := extends_record chronicle now reign grows
  have current : ∀ {ofTerm other}, (chronicle.record now reign).reigns ofTerm = some other →
      ofTerm = now ∧ other = reign ∨ ofTerm ≠ now ∧ chronicle.reigns ofTerm = some other := by
    intro ofTerm other recorded
    by_cases same : ofTerm = now
    · rw [same, record_self] at recorded
      exact .inl ⟨same, (Option.some.inj recorded).symm⟩
    · rw [record_of_ne chronicle reign same] at recorded
      exact .inr ⟨same, recorded⟩
  constructor
  · rw [record_of_ne chronicle reign positive.symm]
    exact sound.zero
  · intro ofTerm other recorded
    rcases current recorded with ⟨_, rfl⟩ | ⟨_, before⟩
    · exact base
    · exact sound.base before
  · intro ofTerm other recorded
    rcases current recorded with ⟨rfl, rfl⟩ | ⟨_, before⟩
    · exact older
    · exact sound.older before
  · intro ofTerm other recorded
    rcases current recorded with ⟨rfl, rfl⟩ | ⟨_, before⟩
    · exact own
    · exact sound.own before
  · intro ofTerm other recorded
    rcases current recorded with ⟨_, rfl⟩ | ⟨_, before⟩
    · exact derived
    · exact (sound.derived before).mono extension
  · intro other ofTerm front confirmed
    obtain ⟨old, recorded, inside⟩ := sound.acked confirmed
    obtain ⟨log, later, longer, _⟩ := extension.reigns recorded
    exact ⟨_, later, inside.trans longer⟩
  · intro ofTerm other recorded
    rcases current recorded with ⟨_, rfl⟩ | ⟨_, before⟩
    · exact isQuorum
    · exact sound.quorum before
  · intro ofTerm other recorded
    rcases current recorded with ⟨rfl, rfl⟩ | ⟨_, before⟩
    · intro voter voted
      obtain ⟨log, known, upToDate, keeps⟩ := elected voter voted
      refine ⟨log, known.mono extension, upToDate, ?_⟩
      intro earlier below front confirmed
      rcases keeps earlier below front confirmed with kept | broken
      · exact .inl kept
      · exact .inr (broken.mono extension)
    · exact sound.elected_mono extension settled before

theorem Sound.append (sound : chronicle.Sound term quorum) {entries : List ε}
    (recorded : chronicle.reigns now = some reign)
    (settled : chronicle.Settled reign.leader now) (current : ∀ entry ∈ entries, term entry = now) :
    (chronicle.record now { reign with log := reign.log ++ entries }).Sound term quorum := by
  have positive : now ≠ 0 := by
    rintro rfl
    rw [sound.zero] at recorded
    exact absurd recorded (by simp)
  have grows : ∀ old, chronicle.reigns now = some old →
      ∃ log, { reign with log := reign.log ++ entries } = { old with log := log } ∧
        old.log <+: log := by
    intro old alsoRecorded
    rw [recorded] at alsoRecorded
    cases alsoRecorded
    exact ⟨_, rfl, List.prefix_append _ _⟩
  apply sound.record positive grows settled
  · exact (sound.base recorded).trans (List.prefix_append _ _)
  · exact fun entry member => sound.older recorded entry member
  · intro position entry behind found
    rcases Nat.lt_or_ge position reign.log.length with inside | beyond
    · rw [List.getElem?_append_left inside] at found
      exact sound.own recorded position entry behind found
    · rw [List.getElem?_append_right beyond] at found
      exact current entry (List.mem_of_getElem? found)
  · intro position entry found
    rcases Nat.lt_or_ge position reign.log.length with inside | beyond
    · rw [List.getElem?_append_left inside] at found
      rw [List.take_append_of_le_length inside]
      exact (sound.derived recorded).mono (extends_record chronicle now _ grows) position entry
        found
    · rw [List.getElem?_append_right beyond] at found
      rw [current entry (List.mem_of_getElem? found)]
      exact ⟨_, record_self _ _ _, List.take_prefix _ _⟩
  · have isQuorum := sound.quorum recorded
    exact isQuorum
  · exact fun voter voted => sound.elected recorded voter voted

theorem Settled.record (settled : chronicle.Settled node now) (reign : Reign ν ε) :
    (chronicle.record now reign).Settled node now := by
  intro later other recorded voted
  by_cases current : later = now
  · exact le_of_eq current
  · rw [record_of_ne chronicle reign current] at recorded
    exact settled later other recorded voted

/-- A leader appends entries of its term and confirms them. -/
def lead (chronicle : Chronicle ν ε) (now : Nat) (reign : Reign ν ε) (entries : List ε) :
    Chronicle ν ε :=
  (chronicle.record now { reign with log := reign.log ++ entries }).acknowledge reign.leader now
    (reign.log ++ entries)

theorem extends_lead (recorded : chronicle.reigns now = some reign) (entries : List ε) :
    Extends reign.leader now chronicle (chronicle.lead now reign entries) := by
  refine (extends_record chronicle now { reign with log := reign.log ++ entries } ?_).trans
    (extends_acknowledge _ reign.leader now _)
  intro old alsoRecorded
  rw [recorded] at alsoRecorded
  cases alsoRecorded
  exact ⟨_, rfl, List.prefix_append _ _⟩

theorem Sound.lead (sound : chronicle.Sound term quorum) {entries : List ε}
    (recorded : chronicle.reigns now = some reign)
    (settled : chronicle.Settled reign.leader now) (current : ∀ entry ∈ entries, term entry = now) :
    (chronicle.lead now reign entries).Sound term quorum :=
  (sound.append recorded settled current).acknowledge (record_self _ _ _) (List.prefix_refl _)
    (settled.record _)

/-- A node is elected, and confirms the log it starts from. -/
def elect (chronicle : Chronicle ν ε) (now : Nat) (leader : ν) (voters : Finset ν)
    (base : List ε) : Chronicle ν ε :=
  (chronicle.record now ⟨leader, voters, base, base⟩).acknowledge leader now base

theorem extends_elect {leader : ν} {voters : Finset ν} {base : List ε}
    (vacant : chronicle.reigns now = none) :
    Extends leader now chronicle (chronicle.elect now leader voters base) := by
  refine (extends_record chronicle now ⟨leader, voters, base, base⟩ ?_).trans
    (extends_acknowledge _ leader now _)
  intro old recorded
  rw [vacant] at recorded
  exact absurd recorded (by simp)

/-- A node is elected in a term without a leader. -/
theorem Sound.elect (sound : chronicle.Sound term quorum) {leader : ν} {voters : Finset ν}
    {base : List ε} (positive : now ≠ 0) (vacant : chronicle.reigns now = none)
    (settled : chronicle.Settled leader now) (older : ∀ entry ∈ base, term entry < now)
    (derived : chronicle.Derived term base) (isQuorum : quorum voters)
    (elected : ∀ voter ∈ voters, ∃ log, chronicle.Derived term log ∧
      UpToDate term base log ∧ chronicle.Keeps voter now log) :
    (chronicle.elect now leader voters base).Sound term quorum := by
  have grows : ∀ old, chronicle.reigns now = some old →
      ∃ log, Reign.mk leader voters base base = { old with log := log } ∧ old.log <+: log := by
    intro old recorded
    rw [vacant] at recorded
    exact absurd recorded (by simp)
  refine Sound.acknowledge ?_ (record_self _ _ _) (List.prefix_refl _) (settled.record _)
  apply sound.record positive grows settled
  · exact List.prefix_refl _
  · exact older
  · intro position entry behind found
    rw [List.getElem?_eq_none behind] at found
    exact absurd found (by simp)
  · exact derived.mono (extends_record chronicle now _ grows)
  · exact isQuorum
  · exact elected

/-- The chronicle before the first election. -/
def empty : Chronicle ν ε := ⟨fun _ => none, fun _ _ _ => False⟩

theorem sound_empty : (empty : Chronicle ν ε).Sound term quorum where
  zero := rfl
  base recorded := absurd recorded (by simp [empty])
  older recorded := absurd recorded (by simp [empty])
  own recorded := absurd recorded (by simp [empty])
  derived recorded := absurd recorded (by simp [empty])
  acked confirmed := confirmed.elim
  quorum recorded := absurd recorded (by simp [empty])
  elected recorded := absurd recorded (by simp [empty])

end Operations

end Chronicle

end JouleDB
