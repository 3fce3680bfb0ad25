import Profiling.CString

/-!
# Profiling.Snprintf

A text that is put together in a fixed buffer by
`offset += snprintf(buffer + offset, sizeof(buffer) - offset, …)`.

`snprintf` returns the length of the text it was given, also if the buffer has
no room for it.  As long as the offset is in the buffer, what is written is the
beginning of the whole text (`Holds.appendAll`); behind the buffer the room that
is left wraps around, and the next call writes out of bounds.
-/

namespace Profiling

/-- `char buffer[size]` -/
structure CharBuffer (size : Nat) where
  bytes : List UInt8
  length_bytes : bytes.length = size

namespace CharBuffer

variable {size : Nat}

/-- `char buffer[size] = text`: what is left is zero. -/
def ofText (size : Nat) (text : CString) : CharBuffer size where
  bytes := (text ++ List.replicate (size - text.length) 0).take size
  length_bytes := by simp; omega

/-- Bytes written at an offset; `none` if one is not in the buffer. -/
def write (buffer : CharBuffer size) (offset : Nat) (bytes : List UInt8) :
    Option (CharBuffer size) :=
  if h : offset + bytes.length ≤ size then
    some
      { bytes := buffer.bytes.take offset ++ bytes ++ buffer.bytes.drop (offset + bytes.length)
        length_bytes := by simp [buffer.length_bytes]; omega }
  else none

/-- The string in the buffer. -/
def text (buffer : CharBuffer size) : CString := buffer.bytes.takeWhile (· ≠ 0)

/-- `snprintf(buffer + offset, n, …)` of this text -/
def snprintf (buffer : CharBuffer size) (offset n : Nat) (text : CString) :
    Option (CharBuffer size) :=
  if n = 0 then some buffer else buffer.write offset (text.take (n - 1) ++ [0])

/-- `offset += snprintf(buffer + offset, sizeof(buffer) - offset, …)` -/
def append (st : CharBuffer size × Nat) (text : CString) : Option (CharBuffer size × Nat) :=
  (st.1.snprintf st.2 (UInt64.ofNat size - UInt64.ofNat st.2).toNat text).map fun buffer =>
    (buffer, st.2 + text.length)

/-- One such call for each text. -/
def appendAll (st : CharBuffer size × Nat) (texts : List CString) :
    Option (CharBuffer size × Nat) :=
  texts.foldlM append st

/-- The buffer begins with the text and its terminator. -/
def Holds (buffer : CharBuffer size) (text : CString) : Prop := text ++ [0] <+: buffer.bytes

variable {buffer : CharBuffer size} {front text : CString}

theorem Holds.length_lt (h : buffer.Holds front) : front.length < size := by
  have hlen := h.length_le
  rw [buffer.length_bytes, List.length_append, List.length_singleton] at hlen
  omega

/-- A text without a NUL is the string in the buffer. -/
theorem Holds.text_eq (h : buffer.Holds front) (hnul : 0 ∉ front) : buffer.text = front := by
  obtain ⟨rest, hrest⟩ := h
  have hfront : ∀ b ∈ front, decide (b ≠ 0) = true := fun b hb =>
    decide_eq_true fun heq => hnul (heq ▸ hb)
  rw [CharBuffer.text, ← hrest, List.append_assoc, List.takeWhile_append_of_pos hfront]
  simp

theorem holds_ofText (h : front.length < size) : (ofText size front).Holds front := by
  obtain ⟨k, rfl⟩ : ∃ k, size = front.length + (k + 1) := ⟨size - front.length - 1, by omega⟩
  refine ⟨List.replicate k 0, ?_⟩
  simp [ofText, List.replicate_succ]

theorem write_eq {offset : Nat} {bytes : List UInt8} (h : offset + bytes.length ≤ size) :
    ∃ buffer', buffer.write offset bytes = some buffer' ∧
      buffer'.bytes =
        buffer.bytes.take offset ++ bytes ++ buffer.bytes.drop (offset + bytes.length) :=
  ⟨_, dif_pos h, rfl⟩

/-- Bytes and a terminator behind the front of a buffer. -/
theorem write_terminated (hfront : front <+: buffer.bytes) (hfits : (front ++ text).length < size) :
    ∃ buffer', buffer.write front.length (text ++ [0]) = some buffer' ∧
      buffer'.Holds (front ++ text) := by
  have hroom : front.length + (text ++ [0]).length ≤ size := by
    simp only [List.length_append, List.length_singleton] at hfits ⊢
    omega
  obtain ⟨buffer', hwrite, hbytes⟩ := @write_eq size buffer _ _ hroom
  rw [← List.prefix_iff_eq_take.mp hfront, ← List.append_assoc] at hbytes
  exact ⟨buffer', hwrite, _, hbytes.symm⟩

/-- A terminator in the text, in place of a byte of it. -/
theorem Holds.terminate (h : buffer.Holds front) {i : Nat} (hi : i ≤ front.length) :
    ∃ buffer', buffer.write i [0] = some buffer' ∧ buffer'.Holds (front.take i) := by
  have hlen : (front.take i).length = i := by simp [hi]
  have hfront : front.take i <+: buffer.bytes :=
    (List.take_prefix i front).trans ((List.prefix_append front [0]).trans h)
  have hlt := h.length_lt
  obtain ⟨buffer', hwrite, hholds⟩ := @write_terminated size buffer _ [] hfront (by simp; omega)
  rw [hlen] at hwrite
  exact ⟨buffer', hwrite, by simpa using hholds⟩

/-- A call with an offset in the buffer: as much of the text as there is room for. -/
theorem Holds.snprintf (h : buffer.Holds front) (text : CString) :
    ∃ buffer', buffer.snprintf front.length (size - front.length) text = some buffer' ∧
      buffer'.Holds ((front ++ text).take (size - 1)) := by
  have hlt := h.length_lt
  have htake : (front ++ text).take (size - 1) = front ++ text.take (size - front.length - 1) := by
    rw [List.take_append, List.take_of_length_le (by omega), Nat.sub_right_comm]
  have hroom : (front ++ text.take (size - front.length - 1)).length < size := by
    simp
    omega
  rw [CharBuffer.snprintf, if_neg (by omega), htake]
  exact write_terminated ((List.prefix_append front [0]).trans h) hroom

/-- A call on the whole buffer, whatever is in it. -/
theorem snprintf_text (buffer : CharBuffer size) (hsize : 0 < size) (hnul : 0 ∉ text) :
    (buffer.snprintf 0 size text).map (·.text) = some (text.take (size - 1)) := by
  obtain ⟨buffer', hwrite, hholds⟩ := @write_terminated size buffer [] (text.take (size - 1))
    List.nil_prefix (by simp; omega)
  have hcall : buffer.snprintf 0 size text = some buffer' :=
    (if_neg (Nat.pos_iff_ne_zero.mp hsize)).trans hwrite
  rw [List.nil_append] at hholds
  rw [hcall, Option.map_some, hholds.text_eq fun h => hnul (List.mem_of_mem_take h)]

/-- The room that is left, as long as the offset is in the buffer. -/
theorem toNat_room {offset : Nat} (hsize : size < 2 ^ 64) (hoffset : offset ≤ size) :
    (UInt64.ofNat size - UInt64.ofNat offset).toNat = size - offset := by
  have hsize' : (UInt64.ofNat size).toNat = size := UInt64.toNat_ofNat_of_lt' hsize
  have hoffset' : (UInt64.ofNat offset).toNat = offset :=
    UInt64.toNat_ofNat_of_lt' (Nat.lt_of_le_of_lt hoffset hsize)
  rw [UInt64.toNat_sub_of_le _ _ (UInt64.le_iff_toNat_le.mpr (by omega)), hsize', hoffset']

/-- **One call.**  The offset grows by the length of the text, in the buffer or not. -/
theorem Holds.append (hsize : size < 2 ^ 64) (h : buffer.Holds front) (text : CString) :
    ∃ buffer', append (buffer, front.length) text = some (buffer', (front ++ text).length) ∧
      buffer'.Holds ((front ++ text).take (size - 1)) := by
  obtain ⟨buffer', hwrite, hholds⟩ := h.snprintf text
  refine ⟨buffer', ?_, hholds⟩
  rw [CharBuffer.append, toNat_room hsize (Nat.le_of_lt h.length_lt), hwrite, Option.map_some,
    List.length_append]

/-- **All calls.**  If there is room for all texts but the last, the buffer ends up
with the beginning of the whole text. -/
theorem Holds.appendAll (hsize : size < 2 ^ 64) (texts : List CString) (h : buffer.Holds front)
    (hfits : (front ++ texts.dropLast.flatten).length < size) :
    ∃ buffer', appendAll (buffer, front.length) texts =
        some (buffer', (front ++ texts.flatten).length) ∧
      buffer'.Holds ((front ++ texts.flatten).take (size - 1)) := by
  induction texts generalizing buffer front with
  | nil =>
      have hlt := h.length_lt
      refine ⟨buffer, by simp [CharBuffer.appendAll], ?_⟩
      rwa [List.flatten_nil, List.append_nil, List.take_of_length_le (by omega)]
  | cons text texts ih =>
      obtain ⟨buffer', hstep, hholds⟩ := h.append hsize text
      have hrun : CharBuffer.appendAll (buffer, front.length) (text :: texts) =
          CharBuffer.appendAll (buffer', (front ++ text).length) texts := by
        rw [CharBuffer.appendAll, List.foldlM_cons, hstep]
        rfl
      rw [hrun]
      cases texts with
      | nil => exact ⟨buffer', by simp [CharBuffer.appendAll], by simpa using hholds⟩
      | cons next texts =>
          rw [List.dropLast_cons_cons, List.flatten_cons, ← List.append_assoc] at hfits
          have hfirst : (front ++ text).length < size := by
            rw [List.length_append] at hfits
            omega
          rw [List.take_of_length_le (by omega)] at hholds
          rw [List.flatten_cons, ← List.append_assoc]
          exact ih hholds hfits

/-- Texts of which the last one may be left out, and of which the others have room. -/
theorem Holds.appendOptional (hsize : size < 2 ^ 64) (texts : List CString)
    (last : Option CString) (h : buffer.Holds front)
    (hfits : (front ++ texts.flatten).length < size) :
    ∃ buffer', CharBuffer.appendAll (buffer, front.length) (texts ++ last.toList) =
        some (buffer', (front ++ (texts ++ last.toList).flatten).length) ∧
      buffer'.Holds ((front ++ (texts ++ last.toList).flatten).take (size - 1)) := by
  refine h.appendAll hsize _ (Nat.lt_of_le_of_lt ?_ hfits)
  cases last with
  | none =>
      obtain ⟨rest, hrest⟩ := List.dropLast_prefix texts
      have hlen := congrArg (fun texts => texts.flatten.length) hrest
      simp only [List.flatten_append, List.length_append] at hlen
      simp only [Option.toList_none, List.append_nil, List.length_append]
      omega
  | some text => rw [Option.toList_some, List.dropLast_concat]

end CharBuffer

end Profiling
