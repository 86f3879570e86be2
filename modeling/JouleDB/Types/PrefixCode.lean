import JouleDB.Types.Value

/-!
# The value codec is a prefix code

An encoded value is read back from wherever it stands, and the cursor is left right behind it.
Decoding anything ends within the input, and what it reads does not depend on what follows; so
nothing that is cut off in the middle of a value can be decoded.
-/

namespace JouleDB.Types

/-- Entries are listed in the order of their keys. -/
def Ascending (entries : List (String × Value)) : Prop :=
  entries.Pairwise fun first second => utf8 first.1 < utf8 second.1

namespace Value

mutual

/-- All lengths fit 32 bits, and the entries of maps are in order. -/
def Sized : Value → Prop
  | .string value => (utf8 value).length < 2 ^ 32
  | .bytes value => value.length < 2 ^ 32
  | .array items => items.length < 2 ^ 32 ∧ SizedItems items
  | .map entries => entries.length < 2 ^ 32 ∧ Ascending entries ∧ SizedEntries entries
  | .vector values => values.length < 2 ^ 32
  | _ => True

def SizedItems : List Value → Prop
  | [] => True
  | item :: items => item.Sized ∧ SizedItems items

def SizedEntries : List (String × Value) → Prop
  | [] => True
  | (key, value) :: entries => (utf8 key).length < 2 ^ 32 ∧ value.Sized ∧ SizedEntries entries

end

@[elab_as_elim] theorem parts {motive : Value → Prop}
    (leaf : ∀ value, (∀ items, value ≠ .array items) → (∀ entries, value ≠ .map entries) →
      motive value)
    (array : ∀ items, (∀ item ∈ items, motive item) → motive (.array items))
    (map : ∀ entries, (∀ entry ∈ entries, motive entry.2) → motive (.map entries))
    (value : Value) : motive value := by
  refine @Value.rec motive (fun items => ∀ item ∈ items, motive item)
    (fun entries => ∀ entry ∈ entries, motive entry.2) (fun entry => motive entry.2)
    ?_ ?_ ?_ ?_ ?_ ?_ array map ?_ ?_ ?_ ?_ ?_ ?_ ?_ ?_ value
  case refine_10 => simp
  case refine_11 => exact fun item items here there => List.forall_mem_cons.mpr ⟨here, there⟩
  case refine_12 => simp
  case refine_13 => exact fun entry entries here there => List.forall_mem_cons.mpr ⟨here, there⟩
  case refine_14 => exact fun _ _ here => here
  all_goals
    intros
    exact leaf _ nofun nofun

theorem sizedItems_iff {items : List Value} : SizedItems items ↔ ∀ item ∈ items, item.Sized := by
  induction items with
  | nil => simp [SizedItems]
  | cons item items ih => rw [SizedItems, ih, List.forall_mem_cons]

theorem sizedEntries_iff {entries : List (String × Value)} : SizedEntries entries ↔
    ∀ entry ∈ entries, (utf8 entry.1).length < 2 ^ 32 ∧ entry.2.Sized := by
  induction entries with
  | nil => simp [SizedEntries]
  | cons entry entries ih => rw [SizedEntries, ih, List.forall_mem_cons, and_assoc]

/-- The bytes of an entry of a map. -/
def entryBytes (entry : String × Value) : Bytes := prefixed (utf8 entry.1) ++ entry.2.encode

theorem encodeItems_eq (items : List Value) : encodeItems items = items.flatMap encode := by
  induction items with
  | nil => rfl
  | cons item items ih => rw [encodeItems, ih, List.flatMap_cons]

theorem encodeEntries_eq (entries : List (String × Value)) :
    encodeEntries entries = entries.flatMap entryBytes := by
  induction entries with
  | nil => rfl
  | cons entry entries ih =>
      rw [encodeEntries, ih, List.flatMap_cons]
      rfl

end Value

/-! ## Maps -/

theorem insertEntry_of_lt {key : String} {value : Value} {entries : List (String × Value)}
    (after : ∀ entry ∈ entries, utf8 entry.1 < utf8 key) :
    insertEntry key value entries = entries ++ [(key, value)] := by
  induction entries with
  | nil => rfl
  | cons entry entries ih =>
      rw [List.forall_mem_cons] at after
      have other : key ≠ entry.1 := fun equal => List.lt_irrefl _ (equal ▸ after.1)
      have later : ¬utf8 key < utf8 entry.1 := fun before =>
        List.lt_irrefl _ (List.lt_trans before after.1)
      rw [insertEntry, if_neg later, if_neg other, ih after.2]
      rfl

/-- Inserting entries in the order of their keys lists them. -/
theorem foldl_insertEntry {front entries : List (String × Value)}
    (ascending : Ascending (front ++ entries)) :
    entries.foldl (fun map entry => insertEntry entry.1 entry.2 map) front = front ++ entries := by
  induction entries generalizing front with
  | nil => exact (List.append_nil front).symm
  | cons entry entries ih =>
      have below : ∀ other ∈ front, utf8 other.1 < utf8 entry.1 := fun other member =>
        (List.pairwise_append.mp ascending).2.2 other member entry List.mem_cons_self
      rw [List.foldl_cons, insertEntry_of_lt below]
      rw [List.append_cons front entry entries] at ascending
      rw [List.append_cons front entry entries]
      exact ih ascending

/-! ## Reading back -/

open Decoder

theorem readBytes_parses (code : Bytes) : (readBytes code.length).Parses code code :=
  read_parses _ code

theorem readU32_parses {length : Nat} (short : length < 2 ^ 32) :
    readU32.Parses (lengthBytes length) length := by
  have bytes := readBytes_parses (lengthBytes length)
  rw [lengthBytes, toLe_length] at bytes
  refine bytes.bind_pure ?_
  rw [ofLe_toLe_of_lt (by norm_num at short ⊢; exact short)]
  exact Parses.pure length

theorem ofNat_ofLe_bytes64 (value : BitVec 64) :
    BitVec.ofNat 64 (ofLe (bytes64 value)) = value := by
  rw [bytes64, ofLe_toLe_of_lt (by have := value.isLt; norm_num at this ⊢; exact this)]
  exact BitVec.ofNat_toNat 64 value |>.trans (BitVec.setWidth_eq value)

theorem ofNat_ofLe_bytes32 (value : BitVec 32) :
    BitVec.ofNat 32 (ofLe (bytes32 value)) = value := by
  rw [bytes32, ofLe_toLe_of_lt (by have := value.isLt; norm_num at this ⊢; exact this)]
  exact BitVec.ofNat_toNat 32 value |>.trans (BitVec.setWidth_eq value)

theorem readF64_parses (value : F64) : readF64.Parses (bytes64 value) value := by
  have bytes := readBytes_parses (bytes64 value)
  rw [bytes64, toLe_length, ← bytes64] at bytes
  refine bytes.bind_pure ?_
  rw [ofNat_ofLe_bytes64]
  exact Parses.pure value

theorem readI64_parses (value : I64) : readI64.Parses (bytes64 value) value := readF64_parses value

theorem readF32_parses (value : F32) : readF32.Parses (bytes32 value) value := by
  have bytes := readBytes_parses (bytes32 value)
  rw [bytes32, toLe_length, ← bytes32] at bytes
  refine bytes.bind_pure ?_
  rw [ofNat_ofLe_bytes32]
  exact Parses.pure value

theorem readString_parses (text : String) :
    (readString (utf8 text).length).Parses (utf8 text) text := by
  refine (readBytes_parses (utf8 text)).bind_pure ?_
  rw [fromUtf8_utf8]
  exact Parses.pure text

theorem readTag_parses (tag : Byte) : readTag.Parses [tag] tag := byte_parses _ tag

theorem readPoint3_parses (point : Point3) :
    readPoint3.Parses (bytes64 point.x ++ bytes64 point.y ++ bytes64 point.z) point := by
  rw [List.append_assoc]
  exact (readF64_parses _).bind ((readF64_parses _).bind ((readF64_parses _).bind_pure
    (Parses.pure point)))

theorem readQuat_parses (quat : Quat) :
    readQuat.Parses (bytes64 quat.w ++ bytes64 quat.x ++ bytes64 quat.y ++ bytes64 quat.z)
      quat := by
  rw [List.append_assoc, List.append_assoc]
  exact (readF64_parses _).bind ((readF64_parses _).bind ((readF64_parses _).bind
    ((readF64_parses _).bind_pure (Parses.pure quat))))

theorem spatial_parses (value : Spatial3dValue) :
    Spatial3dValue.decodeAt.Parses value.encode value := by
  cases value with
  | point3 point =>
      exact (readTag_parses Tag.point3).bind
        ((readPoint3_parses point).bind_pure (Parses.pure (Spatial3dValue.point3 point)))
  | quat quat =>
      exact (readTag_parses Tag.quat).bind
        ((readQuat_parses quat).bind_pure (Parses.pure (Spatial3dValue.quat quat)))
  | pose6 pose =>
      obtain ⟨position, orientation⟩ := pose
      have both : (Spatial3dValue.decodeTagged Tag.pose6).Parses _ _ :=
        (readPoint3_parses position).bind ((readQuat_parses orientation).bind_pure
          (Parses.pure (Spatial3dValue.pose6 ⟨position, orientation⟩)))
      simp only [← List.append_assoc] at both
      exact (readTag_parses Tag.pose6).bind both
  | bbox3 box =>
      obtain ⟨min, max⟩ := box
      have both : (Spatial3dValue.decodeTagged Tag.bbox3).Parses _ _ :=
        (readPoint3_parses min).bind ((readPoint3_parses max).bind_pure
          (Parses.pure (Spatial3dValue.bbox3 ⟨min, max⟩)))
      simp only [← List.append_assoc] at both
      exact (readTag_parses Tag.bbox3).bind both

namespace Value

theorem readEntry_parses {item : Decoder CodecError Value} {entry : String × Value}
    (short : (utf8 entry.1).length < 2 ^ 32)
    (parses : item.Parses entry.2.encode entry.2) :
    (readEntry item).Parses (entryBytes entry) entry := by
  rw [entryBytes, prefixed, List.append_assoc]
  exact (readU32_parses short).bind ((readString_parses entry.1).bind
    (parses.bind_pure (Parses.pure entry)))

theorem encode_pos (value : Value) : 0 < value.encode.length := by
  cases value with
  | bool value => cases value <;> exact Nat.succ_pos _
  | _ => exact Nat.succ_pos _

/-- A part of a concatenation is no longer than the whole. -/
theorem length_le_flatMap {α : Type} {encode : α → Bytes} {values : List α} {value : α}
    (member : value ∈ values) : (encode value).length ≤ (values.flatMap encode).length := by
  rw [List.flatMap_def]
  exact (List.sublist_flatten_of_mem (List.mem_map_of_mem member)).length_le

/-- A value is read back by what is decoded after its tag. -/
theorem decodeNested_succ {depth : Nat} {tag : Byte} {code : Bytes} {value : Value}
    (parses : (decodeTagged (decodeNested depth) tag).Parses code value) :
    (decodeNested (depth + 1)).Parses (tag :: code) value :=
  (readTag_parses tag).bind parses

theorem leaf_parses {value : Value} (sized : value.Sized) (noArray : ∀ items, value ≠ .array items)
    (noMap : ∀ entries, value ≠ .map entries) (depth : Nat) :
    (decodeNested (depth + 1)).Parses value.encode value := by
  cases value with
  | null => exact decodeNested_succ (Parses.pure Value.null)
  | bool value =>
      cases value with
      | false => exact decodeNested_succ (Parses.pure (Value.bool false))
      | true => exact decodeNested_succ (Parses.pure (Value.bool true))
  | int value =>
      exact decodeNested_succ ((readI64_parses value).bind_pure (Parses.pure (int value)))
  | float value =>
      exact decodeNested_succ ((readF64_parses value).bind_pure (Parses.pure (float value)))
  | string value =>
      exact decodeNested_succ ((readU32_parses sized).bind
        ((readString_parses value).bind_pure (Parses.pure (string value))))
  | bytes value =>
      exact decodeNested_succ ((readU32_parses sized).bind
        ((readBytes_parses value).bind_pure (Parses.pure (Value.bytes value))))
  | array items => exact absurd rfl (noArray items)
  | map entries => exact absurd rfl (noMap entries)
  | timestamp value =>
      exact decodeNested_succ ((readI64_parses value).bind_pure (Parses.pure (timestamp value)))
  | vector values =>
      refine decodeNested_succ ((readU32_parses sized).bind (remaining_bind_parses fun _ => ?_))
      exact (times_parses fun value _ => readF32_parses value).bind_pure
        (Parses.pure (vector values))
  | spatial3d value =>
      exact decodeNested_succ ((spatial_parses value).bind_pure (Parses.pure (spatial3d value)))

/-- A value is read back, also when its parts are decoded with less depth. -/
theorem decodeNested_parses {value : Value} (sized : value.Sized) {depth : Nat}
    (enough : value.encode.length ≤ depth) : (decodeNested depth).Parses value.encode value := by
  induction value using parts generalizing depth with
  | leaf value noArray noMap =>
      obtain ⟨depth, rfl⟩ := Nat.exists_eq_succ_of_ne_zero (value.encode_pos.trans_le enough).ne'
      exact leaf_parses sized noArray noMap depth
  | array items ih =>
      obtain ⟨depth, rfl⟩ := Nat.exists_eq_succ_of_ne_zero ((encode_pos _).trans_le enough).ne'
      obtain ⟨short, sized⟩ := sized
      rw [sizedItems_iff] at sized
      rw [encode, encodeItems_eq, List.length_cons, List.length_append] at enough
      rw [encode, encodeItems_eq]
      refine decodeNested_succ ((readU32_parses short).bind (remaining_bind_parses fun _ => ?_))
      refine (times_parses fun item member => ih item member (sized item member) ?_).bind_pure
        (Parses.pure (array items))
      have part : item.encode.length ≤ (items.flatMap encode).length := length_le_flatMap member
      omega
  | map entries ih =>
      obtain ⟨depth, rfl⟩ := Nat.exists_eq_succ_of_ne_zero ((encode_pos _).trans_le enough).ne'
      obtain ⟨short, ascending, sized⟩ := sized
      rw [sizedEntries_iff] at sized
      rw [encode, encodeEntries_eq, List.length_cons, List.length_append] at enough
      rw [encode, encodeEntries_eq]
      refine decodeNested_succ ((readU32_parses short).bind ?_)
      have reads : (times (readEntry (decodeNested depth)) entries.length).Parses
          (entries.flatMap entryBytes) entries := by
        refine times_parses fun entry member => readEntry_parses (sized entry member).1
          (ih entry member (sized entry member).2 ?_)
        have part : (entryBytes entry).length ≤ (entries.flatMap entryBytes).length :=
          length_le_flatMap member
        rw [entryBytes, List.length_append] at part
        omega
      refine reads.bind_pure ?_
      rw [foldl_insertEntry (show Ascending ([] ++ entries) from ascending)]
      exact Parses.pure (map entries)

/-- A value is read back from wherever it stands. -/
theorem decodeAt_parses {value : Value} (sized : value.Sized) :
    decodeAt.Parses value.encode value := by
  intro front back
  refine decodeNested_parses sized ?_ front back
  simp only [List.length_append]
  omega

end Value

/-! ## Decoding anything -/

section Anything

variable {bytes : Bytes} {cursor : Nat}

/-- Bytes of a given number are read and turned into something. -/
theorem fixed_safe {α : Type} (count : Nat) (make : Bytes → α) (within : cursor ≤ bytes.length) :
    Safe (readBytes count >>= fun bytes => pure (make bytes)) bytes cursor :=
  (read_safe _ count within).bind fun _ _ _ within => Safe.pure _ within

theorem fixed_keeps {α : Type} (count : Nat) (make : Bytes → α) :
    Keeps (readBytes count >>= fun bytes => pure (make bytes))
      (readBytes count >>= fun bytes => pure (make bytes)) :=
  (read_keeps _ count).bind fun _ => Keeps.pure _

theorem readString_safe (len : Nat) (within : cursor ≤ bytes.length) :
    (readString len).Safe bytes cursor := by
  refine (read_safe _ len within).bind fun raw middle _ within => ?_
  cases fromUtf8 raw with
  | none => exact Safe.fail _ within
  | some text => exact Safe.pure text within

theorem readString_keeps (len : Nat) : (readString len).Keeps (readString len) := by
  refine (read_keeps _ len).bind fun raw => ?_
  cases fromUtf8 raw with
  | none => exact Keeps.fail _
  | some text => exact Keeps.pure text

theorem readPoint3_safe (within : cursor ≤ bytes.length) : readPoint3.Safe bytes cursor :=
  (fixed_safe 8 _ within).bind fun _ _ _ within => (fixed_safe 8 _ within).bind
    fun _ _ _ within => (fixed_safe 8 _ within).bind fun _ _ _ within => Safe.pure _ within

theorem readPoint3_keeps : readPoint3.Keeps readPoint3 :=
  (fixed_keeps 8 _).bind fun _ => (fixed_keeps 8 _).bind fun _ => (fixed_keeps 8 _).bind fun _ =>
    Keeps.pure _

theorem readQuat_safe (within : cursor ≤ bytes.length) : readQuat.Safe bytes cursor :=
  (fixed_safe 8 _ within).bind fun _ _ _ within => (fixed_safe 8 _ within).bind
    fun _ _ _ within => (fixed_safe 8 _ within).bind fun _ _ _ within =>
      (fixed_safe 8 _ within).bind fun _ _ _ within => Safe.pure _ within

theorem readQuat_keeps : readQuat.Keeps readQuat :=
  (fixed_keeps 8 _).bind fun _ => (fixed_keeps 8 _).bind fun _ => (fixed_keeps 8 _).bind fun _ =>
    (fixed_keeps 8 _).bind fun _ => Keeps.pure _

theorem spatial_safe (within : cursor ≤ bytes.length) :
    Spatial3dValue.decodeAt.Safe bytes cursor := by
  refine byte_bind_safe within fun inner room => ?_
  unfold Spatial3dValue.decodeTagged
  split
  · exact (readPoint3_safe room).bind fun _ _ _ within => Safe.pure _ within
  · exact (readQuat_safe room).bind fun _ _ _ within => Safe.pure _ within
  · exact (readPoint3_safe room).bind fun _ _ _ within => (readQuat_safe within).bind
      fun _ _ _ within => Safe.pure _ within
  · exact (readPoint3_safe room).bind fun _ _ _ within => (readPoint3_safe within).bind
      fun _ _ _ within => Safe.pure _ within
  · exact Safe.fail _ room

theorem spatial_keeps : Spatial3dValue.decodeAt.Keeps Spatial3dValue.decodeAt := by
  refine (byte_keeps _).bind fun inner => ?_
  unfold Spatial3dValue.decodeTagged
  split
  · exact readPoint3_keeps.bind fun _ => Keeps.pure _
  · exact readQuat_keeps.bind fun _ => Keeps.pure _
  · exact readPoint3_keeps.bind fun _ => readQuat_keeps.bind fun _ => Keeps.pure _
  · exact readPoint3_keeps.bind fun _ => readPoint3_keeps.bind fun _ => Keeps.pure _
  · exact Keeps.fail _

namespace Value

theorem readEntry_safe {item : Decoder CodecError Value} (within : cursor ≤ bytes.length)
    (safe : ∀ later, cursor ≤ later → later ≤ bytes.length → item.Safe bytes later) :
    (readEntry item).Safe bytes cursor := by
  refine (fixed_safe 4 _ within).bind fun keyLen first after within => ?_
  refine (readString_safe keyLen within).bind fun key second later within => ?_
  exact (safe second (after.trans later) within).bind fun _ _ _ within => Safe.pure _ within

theorem readEntry_keeps {item other : Decoder CodecError Value} (keeps : item.Keeps other) :
    (readEntry item).Keeps (readEntry other) :=
  (fixed_keeps 4 _).bind fun keyLen => (readString_keeps keyLen).bind fun _ =>
    keeps.bind fun _ => Keeps.pure _

theorem decodeTagged_safe {item : Decoder CodecError Value} (within : cursor ≤ bytes.length)
    (safe : ∀ later, cursor ≤ later → later ≤ bytes.length → item.Safe bytes later) (tag : Byte) :
    (decodeTagged item tag).Safe bytes cursor := by
  unfold decodeTagged
  split
  case h_1 => exact Safe.pure _ within
  case h_2 => exact Safe.pure _ within
  case h_3 => exact Safe.pure _ within
  case h_4 => exact (fixed_safe 8 _ within).bind fun _ _ _ within => Safe.pure _ within
  case h_5 => exact (fixed_safe 8 _ within).bind fun _ _ _ within => Safe.pure _ within
  case h_6 =>
    exact (fixed_safe 4 _ within).bind fun len _ _ within => (readString_safe len within).bind
      fun _ _ _ within => Safe.pure _ within
  case h_7 =>
    exact (fixed_safe 4 _ within).bind fun len _ _ within => (read_safe _ len within).bind
      fun _ _ _ within => Safe.pure _ within
  case h_8 =>
    refine (fixed_safe 4 _ within).bind fun len middle after within =>
      remaining_bind_safe within fun _ => ?_
    refine (times_safe within len fun later above => safe later (after.trans above)).bind ?_
    exact fun _ _ _ within => Safe.pure _ within
  case h_9 =>
    refine (fixed_safe 4 _ within).bind fun len middle after within => ?_
    refine (times_safe within len fun later above within => readEntry_safe within
      fun last beyond => safe last ((after.trans above).trans beyond)).bind ?_
    exact fun _ _ _ within => Safe.pure _ within
  case h_10 => exact (fixed_safe 8 _ within).bind fun _ _ _ within => Safe.pure _ within
  case h_11 =>
    refine (fixed_safe 4 _ within).bind fun len middle after within =>
      remaining_bind_safe within fun _ => ?_
    refine (times_safe within len fun later _ within => fixed_safe 4 _ within).bind ?_
    exact fun _ _ _ within => Safe.pure _ within
  case h_12 => exact (spatial_safe within).bind fun _ _ _ within => Safe.pure _ within
  case h_13 => exact Safe.fail _ within

theorem decodeTagged_keeps {item other : Decoder CodecError Value} (keeps : item.Keeps other)
    (tag : Byte) : (decodeTagged item tag).Keeps (decodeTagged other tag) := by
  unfold decodeTagged
  split
  case h_1 => exact Keeps.pure _
  case h_2 => exact Keeps.pure _
  case h_3 => exact Keeps.pure _
  case h_4 => exact (fixed_keeps 8 _).bind fun _ => Keeps.pure _
  case h_5 => exact (fixed_keeps 8 _).bind fun _ => Keeps.pure _
  case h_6 =>
    exact (fixed_keeps 4 _).bind fun len => (readString_keeps len).bind fun _ => Keeps.pure _
  case h_7 =>
    exact (fixed_keeps 4 _).bind fun len => (read_keeps _ len).bind fun _ => Keeps.pure _
  case h_8 =>
    exact (fixed_keeps 4 _).bind fun len => remaining_bind_keeps fun _ _ =>
      (times_keeps keeps len).bind fun _ => Keeps.pure _
  case h_9 =>
    exact (fixed_keeps 4 _).bind fun len => (times_keeps (readEntry_keeps keeps) len).bind
      fun _ => Keeps.pure _
  case h_10 => exact (fixed_keeps 8 _).bind fun _ => Keeps.pure _
  case h_11 =>
    exact (fixed_keeps 4 _).bind fun len => remaining_bind_keeps fun _ _ =>
      (times_keeps (fixed_keeps 4 _) len).bind fun _ => Keeps.pure _
  case h_12 => exact spatial_keeps.bind fun _ => Keeps.pure _
  case h_13 => exact Keeps.fail _

/-- With one level more than there are bytes left, decoding ends within the bytes. -/
theorem decodeNested_safe {depth : Nat} (within : cursor ≤ bytes.length)
    (enough : bytes.length - cursor < depth) : (decodeNested depth).Safe bytes cursor := by
  induction depth generalizing cursor with
  | zero => exact absurd enough (Nat.not_lt_zero _)
  | succ depth ih =>
      refine byte_bind_safe within fun tag room => decodeTagged_safe room
        (fun later above within => ih within ?_) tag
      omega

/-- What is decoded does not depend on what follows, nor on the levels that are not needed. -/
theorem decodeNested_keeps {depth more : Nat} (le : depth ≤ more) :
    (decodeNested depth).Keeps (decodeNested more) := by
  induction depth generalizing more with
  | zero => exact Keeps.stop _
  | succ depth ih =>
      cases more with
      | zero => exact absurd le (Nat.not_succ_le_zero depth)
      | succ more =>
          exact (byte_keeps _).bind fun tag =>
            decodeTagged_keeps (ih (Nat.le_of_succ_le_succ le)) tag

theorem decodeAt_safe (within : cursor ≤ bytes.length) : decodeAt.Safe bytes cursor := by
  have enough : bytes.length - cursor < bytes.length + 1 :=
    Nat.lt_succ_of_le (Nat.sub_le _ _)
  have safe := decodeNested_safe within enough
  rw [Safe] at safe ⊢
  rw [decodeAt]
  exact safe

end Value

end Anything

namespace Value

/-- No value is decoded from a part of the bytes of another one: it could be decoded from all of
them as well, and would end too early. -/
theorem decode_cut {value : Value} (sized : value.Sized) {cut : Bytes}
    (front : cut <+: value.encode) (strict : cut ≠ value.encode) : ∃ error, decode cut = .err error := by
  obtain ⟨more, whole⟩ := front
  have safe : decodeAt.Safe cut 0 := decodeAt_safe (Nat.zero_le _)
  replace safe := safe fun _ _ => trivial
  rw [decode]
  cases ended : decodeAt cut 0 with
  | mk outcome final log =>
      cases log with
      | cons entry _ => exact entry.elim
      | nil =>
          rw [ended] at safe
          cases outcome with
          | err error => exact ⟨error, rfl⟩
          | halt cause => exact safe.elim
          | ok other =>
              have longer : cut.length + 1 ≤ (cut ++ more).length + 1 := by simp
              have kept : decodeAt (cut ++ more) 0 = ⟨.ok other, final, []⟩ :=
                decodeNested_keeps longer cut more 0 other final ended
              have parsed : decodeAt value.encode 0 = ⟨.ok value, value.encode.length, []⟩ := by
                have all := decodeAt_parses sized [] []
                rw [List.nil_append, List.append_nil, List.length_nil, Nat.zero_add] at all
                exact all
              rw [whole, parsed] at kept
              cases kept
              have short : cut.length < value.encode.length := by
                rw [← whole, List.length_append]
                refine Nat.lt_add_of_pos_right (List.length_pos_iff.mpr fun none => strict ?_)
                rw [← whole, none, List.append_nil]
              exact absurd safe.2 (not_le.mpr short)

/-- The codec is a prefix code, and decoding anything ends within the input. -/
theorem prefixCode {value : Value} (sized : value.Sized) :
    (∀ suffix, decodeAt (value.encode ++ suffix) 0 = ⟨.ok value, value.encode.length, []⟩) ∧
      (∀ cut, cut <+: value.encode → cut ≠ value.encode → ∃ error, decode cut = .err error) ∧
      ∀ (bytes : Bytes) (cursor : Nat), cursor ≤ bytes.length →
        (∀ cause, (decodeAt bytes cursor).outcome ≠ .halt cause) ∧
          (decodeAt bytes cursor).state ≤ bytes.length := by
  refine ⟨fun suffix => ?_, fun cut => decode_cut sized, fun bytes cursor within => ?_⟩
  · have parsed := decodeAt_parses sized [] suffix
    rwa [List.nil_append, List.length_nil, Nat.zero_add] at parsed
  · have safe := decodeAt_safe within fun _ _ => trivial
    revert safe
    cases (decodeAt bytes cursor).outcome with
    | ok value => exact fun safe => ⟨nofun, safe.2⟩
    | err error => exact fun safe => ⟨nofun, safe⟩
    | halt cause => exact fun safe => safe.elim

/-- An array of a truth value and two bytes. -/
def sample : Value := .array [.bool true, .bytes [1, 2]]

theorem prefixCode_sample :
    (∀ suffix, decodeAt (sample.encode ++ suffix) 0 = ⟨.ok sample, sample.encode.length, []⟩) ∧
      (∀ cut, cut <+: sample.encode → cut ≠ sample.encode → ∃ error, decode cut = .err error) ∧
      ∀ (bytes : Bytes) (cursor : Nat), cursor ≤ bytes.length →
        (∀ cause, (decodeAt bytes cursor).outcome ≠ .halt cause) ∧
          (decodeAt bytes cursor).state ≤ bytes.length :=
  prefixCode (by simp [sample, Sized, SizedItems])

end Value

end JouleDB.Types
