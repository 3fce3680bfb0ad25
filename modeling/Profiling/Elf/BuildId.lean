import Profiling.Hex

/-!
# Profiling.Elf.BuildId

`get_elf_build_id_from_elf` of `src/elf/elf.c`: the notes of the section
`.note.gnu.build-id`, and the identifier that a file is cached under.

`gelf_getnote` is a parameter, with what is relied on (`GetNote`).  One round of
the loop is a `noteStep`; a byte that is read outside the section, or written
outside the buffer of the result, is a `fault`.

* `noteWalk_total` — whatever is in the section, the walk comes to an end without
  a fault;
* `noteWalk_front` — the first build id among serialised notes is found;
* `buildIdText_inj` — different descriptors give different identifiers.
-/

namespace Profiling

/-! ## Notes -/

/-- `GElf_Nhdr` -/
structure GElfNhdr where
  namesz : UInt32
  descsz : UInt32
  type : UInt32
  deriving DecidableEq, Repr

/-- A byte of the section. -/
def byteAt (buf : List UInt8) (i : Nat) : Nat := (buf.getD i 0).toNat

/-- The 32-bit word at an offset, the low byte first. -/
def word32 (buf : List UInt8) (offset : Nat) : UInt32 :=
  UInt32.ofNat (byteAt buf offset + 2 ^ 8 * byteAt buf (offset + 1) +
    2 ^ 16 * byteAt buf (offset + 2) + 2 ^ 24 * byteAt buf (offset + 3))

/-- The header of a note at an offset. -/
def nhdrAt (buf : List UInt8) (offset : Nat) : GElfNhdr :=
  ⟨word32 buf offset, word32 buf (offset + 4), word32 buf (offset + 8)⟩

/-- A length with its padding. -/
def padded (n : Nat) : Nat := (n + 3) / 4 * 4

/-- `gelf_getnote`, as far as the loop looks at it: where there are 12 bytes it
decodes the header words, if it succeeds, and it does for a note that is whole. -/
structure GetNote where
  run : List UInt8 → Nat → Option GElfNhdr
  decodes : ∀ buf offset nhdr, offset + 12 ≤ buf.length → run buf offset = some nhdr →
    nhdr = nhdrAt buf offset
  finds : ∀ buf offset, offset + 12 + padded (nhdrAt buf offset).namesz.toNat +
    padded (nhdrAt buf offset).descsz.toNat ≤ buf.length → run buf offset = some (nhdrAt buf offset)

/-- `(n + 3) & ~3` of a 32-bit word -/
def alignWord (n : UInt32) : UInt32 := (n + 3) &&& 0xfffffffc

def ntGnuBuildId : UInt32 := 3

/-! ## The walk -/

/-- What a walk over a section comes to: a byte outside of what may be read or
written, no build id, or a build id, `none` if `malloc` fails. -/
inductive NoteWalk where
  | outOfFuel
  | fault
  | absent
  | found (buildId : Option CString)
  deriving DecidableEq, Repr

/-- One round of the loop: it leaves the loop, or goes on at an offset. -/
inductive NoteStep where
  | stop (result : NoteWalk)
  | next (offset : UInt64)

/-- Bytes that are read one after another, if they are all in the section. -/
def readBytes (buf : List UInt8) (start n : Nat) : Option (List UInt8) :=
  if start + n ≤ buf.length then some ((buf.drop start).take n) else none

/-- `sprintf(build_id_str + i * 2, "%02x", build_id_raw[i])` for all bytes -/
def buildIdText (desc : List UInt8) : CString := desc.flatMap fun b => hexText 2 b.toNat

/-- The descriptor of a note is made into a string of `n_descsz * 2 + 1` bytes. -/
def readBuildId (allocated : Bool) (buf : List UInt8) (start : UInt64) (descsz : UInt32) : NoteWalk :=
  if allocated then
    if (descsz * 2 + 1).toNat < descsz.toNat * 2 + 1 then .fault
    else
      match readBytes buf start.toNat descsz.toNat with
      | none => .fault
      | some desc => .found (some (buildIdText desc))
  else .found none

/-- The loop condition and the body of the loop. -/
def noteStep (getnote : GetNote) (allocated : Bool) (buf : List UInt8) (offset : UInt64) : NoteStep :=
  let dSize := UInt64.ofNat buf.length
  if offset + 12 < dSize then
    if buf.length < offset.toNat + 12 then .stop .fault
    else
      match getnote.run buf offset.toNat with
      | none => .stop .absent
      | some nhdr =>
          if dSize < nhdr.namesz.toUInt64 ∨ dSize < nhdr.descsz.toUInt64 then .stop .absent
          else
            let nameSzAligned := (alignWord nhdr.namesz).toUInt64
            let descSzAligned := (alignWord nhdr.descsz).toUInt64
            if dSize < offset + 12 + nameSzAligned + descSzAligned then .stop .absent
            else if nhdr.type = ntGnuBuildId ∧ 0 < nhdr.descsz then
              .stop (readBuildId allocated buf (offset + 12 + nameSzAligned) nhdr.descsz)
            else .next (offset + (12 + nameSzAligned + descSzAligned))
  else .stop .absent

/-- The loop over the notes of a section. -/
def noteWalk (getnote : GetNote) (allocated : Bool) (buf : List UInt8) : Nat → UInt64 → NoteWalk
  | 0, _ => .outOfFuel
  | fuel + 1, offset =>
      match noteStep getnote allocated buf offset with
      | .stop result => result
      | .next offset => noteWalk getnote allocated buf fuel offset

/-- What `get_elf_build_id_from_elf` reads of a section. -/
structure NoteSection where
  /-- `elf_strptr(e, shstrndx, shdr.sh_name)` -/
  name : Option CString
  shType : Nat
  /-- `elf_getdata`, where `d_buf` is not `NULL` -/
  data : Option (List UInt8)

def shtNote : Nat := 7

/-- `get_elf_build_id_from_elf`, with as many rounds for each section as it has
bytes, and one. -/
def getElfBuildIdFromElf (getnote : GetNote) (allocated : Bool) : List NoteSection → NoteWalk
  | [] => .absent
  | scn :: scns =>
      if scn.name = some (cstr ".note.gnu.build-id") ∧ scn.shType = shtNote then
        match scn.data with
        | none => getElfBuildIdFromElf getnote allocated scns
        | some buf =>
            match noteWalk getnote allocated buf (buf.length + 1) 0 with
            | .absent => getElfBuildIdFromElf getnote allocated scns
            | result => result
      else getElfBuildIdFromElf getnote allocated scns

/-! ## What is in the section -/

/-- A note. -/
structure ElfNote where
  type : UInt32
  name : List UInt8
  desc : List UInt8

/-- A 32-bit word, the low byte first. -/
def le32 (n : Nat) : List UInt8 :=
  [UInt8.ofNat n, UInt8.ofNat (n / 2 ^ 8), UInt8.ofNat (n / 2 ^ 16), UInt8.ofNat (n / 2 ^ 24)]

/-- Bytes with zeros up to a multiple of four. -/
def pad4 (bytes : List UInt8) : List UInt8 :=
  bytes ++ List.replicate (padded bytes.length - bytes.length) 0

namespace ElfNote

/-- The header words. -/
def header (note : ElfNote) : List UInt8 :=
  le32 note.name.length ++ le32 note.desc.length ++ le32 note.type.toNat

/-- The note as it stands in the section. -/
def bytes (note : ElfNote) : List UInt8 := note.header ++ pad4 note.name ++ pad4 note.desc

/-- A build id that is not empty. -/
def isBuildId (note : ElfNote) : Bool := note.type == ntGnuBuildId && !note.desc.isEmpty

end ElfNote

/-- The section. -/
def sectionBytes (notes : List ElfNote) : List UInt8 := notes.flatMap ElfNote.bytes

/-- The descriptor of the first build id. -/
def firstBuildId (notes : List ElfNote) : Option (List UInt8) :=
  (notes.find? ElfNote.isBuildId).map ElfNote.desc

/-- What a walk should come to. -/
def NoteWalk.ofDesc : Option (List UInt8) → NoteWalk
  | none => .absent
  | some desc => .found (some (buildIdText desc))

/-! ## Sizes -/

theorem le_padded (n : Nat) : n ≤ padded n := by
  rw [padded]
  omega

theorem padded_le (n : Nat) : padded n ≤ n + 3 := by
  rw [padded]
  omega

/-- The low bits of a 32-bit number are cleared. -/
theorem and_mask {x : Nat} (h : x < 2 ^ 32) : x &&& 0xfffffffc = x / 4 * 4 := by
  have hx : x / 4 * 4 = (x >>> 2) <<< 2 := by
    rw [Nat.shiftRight_eq_div_pow, Nat.shiftLeft_eq]
  have hmask : (0xfffffffc : Nat) = (2 ^ 30 - 1) <<< 2 := by decide
  rw [hx, hmask]
  refine Nat.eq_of_testBit_eq fun i => ?_
  rw [Nat.testBit_and, Nat.testBit_shiftLeft, Nat.testBit_shiftLeft, Nat.testBit_shiftRight,
    Nat.testBit_two_pow_sub_one]
  by_cases hlow : 2 ≤ i
  · have hback : 2 + (i - 2) = i := by omega
    by_cases hhigh : i < 32
    · have hin : i - 2 < 30 := by omega
      simp [hlow, hin, hback]
    · have hzero : x.testBit i = false :=
        Nat.testBit_lt_two_pow (lt_of_lt_of_le h (Nat.pow_le_pow_right (by decide) (by omega)))
      simp [hzero, hback]
  · simp [hlow]

/-- Below 2 GiB, nothing wraps in the padding. -/
theorem toNat_alignWord {n : UInt32} (h : n.toNat < 2 ^ 31) :
    (alignWord n).toUInt64.toNat = padded n.toNat := by
  rw [UInt32.toNat_toUInt64, alignWord, UInt32.toNat_and, UInt32.toNat_add]
  simp only [UInt32.reduceToNat]
  rw [Nat.mod_eq_of_lt (by omega), and_mask (by omega), padded]

/-! ## One round -/

section Step

variable {getnote : GetNote} {allocated : Bool} {buf : List UInt8} {offset : UInt64}

theorem toNat_size (hlength : buf.length < 2 ^ 31) : (UInt64.ofNat buf.length).toNat = buf.length := by
  rw [UInt64.toNat_ofNat']
  exact Nat.mod_eq_of_lt (by omega)

/-- A descriptor in the section is read, and its string fits. -/
theorem readBuildId_eq {start : UInt64} {descsz : UInt32} (hdesc : descsz.toNat < 2 ^ 31)
    (hin : start.toNat + descsz.toNat ≤ buf.length) :
    readBuildId allocated buf start descsz =
      .found (if allocated then some (buildIdText ((buf.drop start.toNat).take descsz.toNat))
        else none) := by
  have hsize : (descsz * 2 + 1).toNat = descsz.toNat * 2 + 1 := by
    rw [UInt32.toNat_add, UInt32.toNat_mul]
    simp only [UInt32.reduceToNat]
    rw [Nat.mod_eq_of_lt (by omega), Nat.mod_eq_of_lt (by omega)]
  cases allocated with
  | false => rfl
  | true =>
      have hfits : ¬(descsz * 2 + 1).toNat < descsz.toNat * 2 + 1 := by omega
      rw [readBuildId, if_pos rfl, if_neg hfits, readBytes, if_pos hin]
      rfl

/-- The end of a note, as it is computed. -/
theorem toNat_noteEnd (namesz descsz : UInt32) (hlength : buf.length < 2 ^ 31)
    (hoffset : offset.toNat ≤ buf.length) (hname : namesz.toNat ≤ buf.length)
    (hdesc : descsz.toNat ≤ buf.length) :
    (offset + 12 + (alignWord namesz).toUInt64 + (alignWord descsz).toUInt64).toNat =
      offset.toNat + 12 + padded namesz.toNat + padded descsz.toNat ∧
    (offset + 12 + (alignWord namesz).toUInt64).toNat =
      offset.toNat + 12 + padded namesz.toNat ∧
    (offset + (12 + (alignWord namesz).toUInt64 + (alignWord descsz).toUInt64)).toNat =
      offset.toNat + 12 + padded namesz.toNat + padded descsz.toNat := by
  have hpname := padded_le namesz.toNat
  have hpdesc := padded_le descsz.toNat
  simp only [UInt64.toNat_add, toNat_alignWord (show namesz.toNat < 2 ^ 31 by omega),
    toNat_alignWord (show descsz.toNat < 2 ^ 31 by omega), UInt64.reduceToNat]
  omega

/-- What a round may come to. -/
def NoteStep.Safe (buf : List UInt8) (offset : UInt64) : NoteStep → Prop
  | .stop result => result ≠ .fault ∧ result ≠ .outOfFuel
  | .next offset' => offset.toNat + 12 ≤ offset'.toNat ∧ offset'.toNat ≤ buf.length

/-- **One round** reads bytes of the section only, and goes on behind the header
or leaves the loop. -/
theorem noteStep_safe (hlength : buf.length < 2 ^ 31) (hoffset : offset.toNat ≤ buf.length) :
    (noteStep getnote allocated buf offset).Safe buf offset := by
  have hsize := toNat_size hlength
  have habsent : (NoteStep.stop .absent).Safe buf offset := by
    simp [NoteStep.Safe]
  simp only [noteStep, UInt64.lt_iff_toNat_lt, hsize, UInt32.toNat_toUInt64]
  split
  · next hguard =>
    have htwelve : (offset + 12).toNat = offset.toNat + 12 := by
      rw [UInt64.toNat_add]
      simp only [UInt64.reduceToNat]
      omega
    rw [htwelve] at hguard
    rw [if_neg (by omega)]
    cases getnote.run buf offset.toNat with
    | none => exact habsent
    | some nhdr =>
        dsimp only
        split
        · exact habsent
        · next hsane =>
          obtain ⟨hname, hdesc⟩ := not_or.mp hsane
          obtain ⟨hend, hstart, hnext⟩ := toNat_noteEnd nhdr.namesz nhdr.descsz hlength hoffset
            (Nat.not_lt.mp hname) (Nat.not_lt.mp hdesc)
          rw [hend]
          split
          · exact habsent
          · next hin =>
            have hpad := le_padded nhdr.descsz.toNat
            split
            · rw [readBuildId_eq (by omega) (by rw [hstart]; omega)]
              simp [NoteStep.Safe]
            · rw [NoteStep.Safe, hnext]
              omega
  · exact habsent

/-- **Whatever is in the section**, the walk comes to an end, and neither reads nor
writes where it may not. -/
theorem noteWalk_total (hlength : buf.length < 2 ^ 31) (hoffset : offset.toNat ≤ buf.length) :
    ∃ result, result ≠ .fault ∧ result ≠ .outOfFuel ∧
      ∀ fuel, buf.length - offset.toNat < fuel →
        noteWalk getnote allocated buf fuel offset = result := by
  induction hn : buf.length - offset.toNat using Nat.strong_induction_on generalizing offset with
  | _ n ih =>
    have hsafe : (noteStep getnote allocated buf offset).Safe buf offset :=
      noteStep_safe hlength hoffset
    cases hstep : noteStep getnote allocated buf offset with
    | stop result =>
        rw [hstep] at hsafe
        refine ⟨result, hsafe.1, hsafe.2, fun fuel hfuel => ?_⟩
        obtain ⟨fuel, rfl⟩ := Nat.exists_eq_succ_of_ne_zero (Nat.ne_of_gt (Nat.zero_lt_of_lt hfuel))
        rw [noteWalk, hstep]
    | next offset' =>
        rw [hstep] at hsafe
        obtain ⟨hforward, hin⟩ := hsafe
        obtain ⟨result, hfault, hfuel, hwalk⟩ := ih _ (by omega) hin rfl
        refine ⟨result, hfault, hfuel, fun fuel hlt => ?_⟩
        obtain ⟨fuel, rfl⟩ := Nat.exists_eq_succ_of_ne_zero (Nat.ne_of_gt (Nat.zero_lt_of_lt hlt))
        rw [noteWalk, hstep]
        exact hwalk fuel (by omega)

end Step

/-! ## Serialised notes -/

section Serialised

variable {front back : List UInt8} {note : ElfNote}

theorem length_pad4 (bytes : List UInt8) : (pad4 bytes).length = padded bytes.length := by
  have := le_padded bytes.length
  rw [pad4, List.length_append, List.length_replicate]
  omega

theorem length_header (note : ElfNote) : note.header.length = 12 := rfl

theorem length_bytes (note : ElfNote) :
    note.bytes.length = 12 + padded note.name.length + padded note.desc.length := by
  rw [ElfNote.bytes, List.length_append, List.length_append, length_pad4, length_pad4,
    length_header]

theorem word32_append (front rest : List UInt8) (i : Nat) :
    word32 (front ++ rest) (front.length + i) = word32 rest i := by
  have hbyte : ∀ j, byteAt (front ++ rest) (front.length + j) = byteAt rest j := fun j => by
    rw [byteAt, List.getD_append_right _ _ _ _ (Nat.le_add_right _ _), Nat.add_sub_cancel_left]
    rfl
  simp only [word32, Nat.add_assoc front.length, hbyte]

/-- A word is decoded as it was written. -/
theorem word32_le32 {n : Nat} (h : n < 2 ^ 32) (rest : List UInt8) :
    word32 (le32 n ++ rest) 0 = UInt32.ofNat n := by
  have hbytes : byteAt (le32 n ++ rest) 0 = n % 2 ^ 8 ∧
      byteAt (le32 n ++ rest) (0 + 1) = n / 2 ^ 8 % 2 ^ 8 ∧
      byteAt (le32 n ++ rest) (0 + 2) = n / 2 ^ 16 % 2 ^ 8 ∧
      byteAt (le32 n ++ rest) (0 + 3) = n / 2 ^ 24 % 2 ^ 8 := ⟨rfl, rfl, rfl, rfl⟩
  obtain ⟨h0, h1, h2, h3⟩ := hbytes
  have hsum : n % 2 ^ 8 + 2 ^ 8 * (n / 2 ^ 8 % 2 ^ 8) + 2 ^ 16 * (n / 2 ^ 16 % 2 ^ 8) +
      2 ^ 24 * (n / 2 ^ 24 % 2 ^ 8) = n := by omega
  rw [word32, h0, h1, h2, h3, hsum]

/-- The header is decoded as it was written. -/
theorem nhdrAt_bytes (hname : note.name.length < 2 ^ 32) (hdesc : note.desc.length < 2 ^ 32) :
    nhdrAt (front ++ (note.bytes ++ back)) front.length =
      ⟨UInt32.ofNat note.name.length, UInt32.ofNat note.desc.length, note.type⟩ := by
  have hbytes : note.bytes ++ back = le32 note.name.length ++ (le32 note.desc.length ++
      (le32 note.type.toNat ++ (pad4 note.name ++ (pad4 note.desc ++ back)))) := by
    simp only [ElfNote.bytes, ElfNote.header, List.append_assoc]
  have htype : word32 (le32 note.type.toNat ++ (pad4 note.name ++ (pad4 note.desc ++ back))) 0 =
      note.type := by
    rw [word32_le32 note.type.toNat_lt, UInt32.ofNat_toNat]
  have hsecond := word32_append (le32 note.name.length) (le32 note.desc.length ++
    (le32 note.type.toNat ++ (pad4 note.name ++ (pad4 note.desc ++ back)))) 0
  have hthird := word32_append (le32 note.name.length ++ le32 note.desc.length)
    (le32 note.type.toNat ++ (pad4 note.name ++ (pad4 note.desc ++ back))) 0
  rw [List.append_assoc] at hthird
  have hzero := word32_append front (note.bytes ++ back) 0
  have hfour := word32_append front (note.bytes ++ back) 4
  have height := word32_append front (note.bytes ++ back) 8
  rw [Nat.add_zero, hbytes, word32_le32 hname] at hzero
  rw [hbytes] at hfour height
  rw [nhdrAt, hbytes, hzero, hfour.trans (hsecond.trans (word32_le32 hdesc _)),
    height.trans (hthird.trans htype)]

/-- The descriptor stands behind the header and the name. -/
theorem take_drop_desc (note : ElfNote) (front back : List UInt8) :
    ((front ++ (note.bytes ++ back)).drop (front.length + 12 + padded note.name.length)).take
      note.desc.length = note.desc := by
  have hfront : front ++ (note.bytes ++ back) =
      (front ++ note.header ++ pad4 note.name) ++ (note.desc ++
        (List.replicate (padded note.desc.length - note.desc.length) 0 ++ back)) := by
    simp only [ElfNote.bytes, pad4, List.append_assoc]
  have hlength : front.length + 12 + padded note.name.length =
      (front ++ note.header ++ pad4 note.name).length := by
    rw [List.length_append, List.length_append, length_header, length_pad4]
  rw [hfront, hlength, List.drop_left, List.take_left]

variable {getnote : GetNote}

/-- **A round at a note** that the loop condition lets in: its descriptor is the
result if it is a build id, else the next note follows. -/
theorem noteStep_bytes {buf : List UInt8} (hbuf : buf = front ++ (note.bytes ++ back))
    (hlength : buf.length < 2 ^ 31) (hguard : front.length + 12 < buf.length) :
    noteStep getnote true buf (UInt64.ofNat front.length) =
      if note.isBuildId then .stop (.found (some (buildIdText note.desc)))
      else .next (UInt64.ofNat (front ++ note.bytes).length) := by
  have hsize := toNat_size hlength
  have htotal : front.length + (12 + padded note.name.length + padded note.desc.length) ≤
      buf.length := by
    rw [hbuf, List.length_append, List.length_append, length_bytes]
    omega
  have hpname := le_padded note.name.length
  have hpdesc := le_padded note.desc.length
  have hheader : nhdrAt (front ++ (note.bytes ++ back)) front.length = _ :=
    nhdrAt_bytes (by omega) (by omega)
  rw [← hbuf] at hheader
  have hname32 : (UInt32.ofNat note.name.length).toNat = note.name.length := by
    rw [UInt32.toNat_ofNat', Nat.mod_eq_of_lt (by omega)]
  have hdesc32 : (UInt32.ofNat note.desc.length).toNat = note.desc.length := by
    rw [UInt32.toNat_ofNat', Nat.mod_eq_of_lt (by omega)]
  have hoff : (UInt64.ofNat front.length).toNat = front.length := by
    rw [UInt64.toNat_ofNat', Nat.mod_eq_of_lt (by omega)]
  have hrun : getnote.run buf front.length = some (nhdrAt buf front.length) := by
    refine getnote.finds buf front.length ?_
    rw [hheader, hname32, hdesc32]
    omega
  rw [hheader] at hrun
  have hoffset : (UInt64.ofNat front.length).toNat ≤ buf.length := by omega
  have hname : (UInt32.ofNat note.name.length).toNat ≤ buf.length := by omega
  have hdesc : (UInt32.ofNat note.desc.length).toNat ≤ buf.length := by omega
  obtain ⟨hend, hstart, hnext⟩ := toNat_noteEnd (UInt32.ofNat note.name.length)
    (UInt32.ofNat note.desc.length) hlength hoffset hname hdesc
  rw [hname32, hdesc32, hoff] at hend hnext
  rw [hname32, hoff] at hstart
  have htwelve : (UInt64.ofNat front.length + 12).toNat = front.length + 12 := by
    rw [UInt64.toNat_add, hoff]
    simp only [UInt64.reduceToNat]
    omega
  have hnonempty : (0 < UInt32.ofNat note.desc.length) ↔ note.desc ≠ [] := by
    rw [UInt32.lt_iff_toNat_lt, hdesc32, UInt32.toNat_zero, List.length_pos_iff]
  simp only [noteStep, UInt64.lt_iff_toNat_lt, hsize, htwelve, hoff, hrun, UInt32.toNat_toUInt64,
    hname32, hdesc32, hend]
  rw [if_pos hguard, if_neg (by omega), if_neg (by omega), if_neg (by omega)]
  by_cases hbuild : note.isBuildId = true
  · obtain ⟨htype, hne⟩ : note.type = ntGnuBuildId ∧ note.desc ≠ [] := by
      simpa [ElfNote.isBuildId] using hbuild
    rw [if_pos ⟨htype, hnonempty.mpr hne⟩, if_pos hbuild, readBuildId_eq (by omega)
      (by rw [hstart, hdesc32]; omega), hstart, hdesc32, if_pos rfl, hbuf, take_drop_desc]
  · have hnot : ¬(note.type = ntGnuBuildId ∧ 0 < UInt32.ofNat note.desc.length) := by
      rw [hnonempty]
      simpa [ElfNote.isBuildId] using hbuild
    rw [if_neg hnot, if_neg hbuild]
    congr 1
    rw [← UInt64.toNat_inj, hnext, UInt64.toNat_ofNat', List.length_append, length_bytes,
      Nat.mod_eq_of_lt (by omega)]
    omega

/-- At the end of the section, the loop is left. -/
theorem noteWalk_end {buf : List UInt8} {offset : Nat} (hlength : buf.length < 2 ^ 31)
    (hoffset : offset ≤ buf.length) (hend : buf.length ≤ offset + 12) (fuel : Nat) :
    noteWalk getnote true buf (fuel + 1) (UInt64.ofNat offset) = .absent := by
  have hsize := toNat_size hlength
  have htwelve : (UInt64.ofNat offset + 12).toNat = offset + 12 := by
    rw [UInt64.toNat_add, UInt64.toNat_ofNat']
    simp only [UInt64.reduceToNat]
    omega
  have hguard : ¬UInt64.ofNat offset + 12 < UInt64.ofNat buf.length := by
    rw [UInt64.lt_iff_toNat_lt, htwelve, hsize]
    omega
  simp only [noteWalk, noteStep, hguard, if_false]

/-- A note takes up more than 12 bytes if it is a build id. -/
theorem firstBuildId_of_short {notes : List ElfNote} (h : (sectionBytes notes).length ≤ 12) :
    firstBuildId notes = none := by
  cases notes with
  | nil => rfl
  | cons note notes =>
      rw [sectionBytes, List.flatMap_cons, List.length_append, length_bytes] at h
      have hdesc := le_padded note.desc.length
      have hnil : note.desc = [] := List.eq_nil_of_length_eq_zero (by omega)
      have hrest : notes = [] := by
        cases notes with
        | nil => rfl
        | cons next notes =>
            rw [List.flatMap_cons, List.length_append, length_bytes] at h
            omega
      simp [firstBuildId, hrest, ElfNote.isBuildId, hnil]

/-- **The walk** from the start of a note on finds the first build id behind it. -/
theorem noteWalk_front (notes : List ElfNote) (front : List UInt8) {buf : List UInt8}
    (hbuf : buf = front ++ sectionBytes notes) (hlength : buf.length < 2 ^ 31) {fuel : Nat}
    (hfuel : buf.length - front.length < fuel) :
    noteWalk getnote true buf fuel (UInt64.ofNat front.length) = .ofDesc (firstBuildId notes) := by
  induction notes generalizing front fuel with
  | nil =>
      obtain ⟨fuel, rfl⟩ := Nat.exists_eq_succ_of_ne_zero (Nat.ne_of_gt (Nat.zero_lt_of_lt hfuel))
      rw [sectionBytes, List.flatMap_nil, List.append_nil] at hbuf
      rw [noteWalk_end hlength (hbuf ▸ le_refl _) (by rw [hbuf]; omega)]
      rfl
  | cons note notes ih =>
      obtain ⟨fuel, rfl⟩ := Nat.exists_eq_succ_of_ne_zero (Nat.ne_of_gt (Nat.zero_lt_of_lt hfuel))
      have htotal : buf.length = front.length + (sectionBytes (note :: notes)).length := by
        rw [hbuf, List.length_append]
      by_cases hguard : front.length + 12 < buf.length
      · rw [sectionBytes, List.flatMap_cons, ← sectionBytes] at hbuf htotal
        rw [noteWalk, noteStep_bytes hbuf hlength hguard, firstBuildId, List.find?_cons]
        cases hbuild : note.isBuildId with
        | true => rfl
        | false =>
            -- the next note is behind this one
            have hbuf' : buf = (front ++ note.bytes) ++ sectionBytes notes := by
              rw [hbuf, List.append_assoc]
            rw [List.length_append, length_bytes] at htotal
            have hlt : buf.length - (front ++ note.bytes).length < fuel := by
              rw [List.length_append, length_bytes]
              omega
            exact ih (front ++ note.bytes) hbuf' hlt
      · rw [firstBuildId_of_short (by omega)]
        exact noteWalk_end hlength (by omega) (by omega) fuel

end Serialised

/-! ## Identifiers -/

/-- **Different descriptors** have different texts. -/
theorem buildIdText_inj {a b : List UInt8} : buildIdText a = buildIdText b ↔ a = b := by
  constructor
  · intro h
    induction a generalizing b with
    | nil =>
        cases b with
        | nil => rfl
        | cons y b =>
            have hne := hexText_ne_nil 2 y.toNat
            rw [buildIdText, buildIdText, List.flatMap_nil, List.flatMap_cons, eq_comm,
              List.append_eq_nil_iff] at h
            exact absurd h.1 hne
    | cons x a ih =>
        cases b with
        | nil =>
            have hne := hexText_ne_nil 2 x.toNat
            rw [buildIdText, buildIdText, List.flatMap_nil, List.flatMap_cons,
              List.append_eq_nil_iff] at h
            exact absurd h.1 hne
        | cons y b =>
            have hlength : ∀ z : UInt8, (hexText 2 z.toNat).length = 2 := fun z =>
              length_hexText (by decide) z.toNat_lt
            rw [buildIdText, buildIdText, List.flatMap_cons, List.flatMap_cons] at h
            obtain ⟨hhead, htail⟩ := List.append_inj h ((hlength x).trans (hlength y).symm)
            rw [UInt8.toNat_inj.mp (hexText_inj.mp hhead), ih htail]
  · rintro rfl
    rfl

theorem ofDesc_inj {a b : Option (List UInt8)} : NoteWalk.ofDesc a = .ofDesc b ↔ a = b := by
  cases a with
  | none => cases b <;> simp [NoteWalk.ofDesc]
  | some a => cases b <;> simp [NoteWalk.ofDesc, buildIdText_inj]

/-- In a file, the first section with a build id gives it. -/
theorem getElfBuildIdFromElf_cons (getnote : GetNote) (notes : List ElfNote)
    (hlength : (sectionBytes notes).length < 2 ^ 31) (scns : List NoteSection) :
    getElfBuildIdFromElf getnote true
        (⟨some (cstr ".note.gnu.build-id"), shtNote, some (sectionBytes notes)⟩ :: scns) =
      (firstBuildId notes).elim (getElfBuildIdFromElf getnote true scns) fun desc =>
        .found (some (buildIdText desc)) := by
  have hwalk : noteWalk getnote true (sectionBytes notes) ((sectionBytes notes).length + 1) 0 =
      .ofDesc (firstBuildId notes) := noteWalk_front notes [] rfl hlength (Nat.lt_succ_self _)
  rw [getElfBuildIdFromElf, if_pos ⟨rfl, rfl⟩]
  dsimp only
  rw [hwalk]
  cases firstBuildId notes <;> rfl

/-- **The note walk.**  On whatever is in a section it comes to an end and reads
only bytes of the section; on serialised notes it finds the descriptor of the
first build id that is not empty, as lower-case hex, or no identifier; and two
sections have equal identifiers just when these descriptors are equal. -/
theorem noteWalk_spec (getnote : GetNote) :
    (∀ (allocated : Bool) (buf : List UInt8), buf.length < 2 ^ 31 →
      ∃ result, result ≠ .fault ∧ result ≠ .outOfFuel ∧
        ∀ fuel, buf.length < fuel → noteWalk getnote allocated buf fuel 0 = result) ∧
    (∀ notes : List ElfNote, (sectionBytes notes).length < 2 ^ 31 →
      noteWalk getnote true (sectionBytes notes) ((sectionBytes notes).length + 1) 0 =
        .ofDesc (firstBuildId notes)) ∧
    ∀ notes notes' : List ElfNote, (sectionBytes notes).length < 2 ^ 31 →
      (sectionBytes notes').length < 2 ^ 31 →
      (noteWalk getnote true (sectionBytes notes) ((sectionBytes notes).length + 1) 0 =
          noteWalk getnote true (sectionBytes notes') ((sectionBytes notes').length + 1) 0 ↔
        firstBuildId notes = firstBuildId notes') := by
  have hfind : ∀ notes : List ElfNote, (sectionBytes notes).length < 2 ^ 31 →
      noteWalk getnote true (sectionBytes notes) ((sectionBytes notes).length + 1) 0 =
        .ofDesc (firstBuildId notes) := fun notes hlength =>
    noteWalk_front notes [] rfl hlength (Nat.lt_succ_self _)
  refine ⟨fun allocated buf hlength => ?_, hfind, fun notes notes' h h' => ?_⟩
  · have hzero : (0 : UInt64).toNat ≤ buf.length := Nat.zero_le _
    exact noteWalk_total hlength hzero
  · rw [hfind notes h, hfind notes' h', ofDesc_inj]

/-- The header words, where there are 12 bytes. -/
def GetNote.plain : GetNote where
  run buf offset := if offset + 12 ≤ buf.length then some (nhdrAt buf offset) else none
  decodes buf offset nhdr hle h := by
    rw [if_pos hle] at h
    exact (Option.some.inj h).symm
  finds buf offset h := if_pos (by omega)

/-- `GNU`, with a descriptor of two bytes. -/
def gnuNote : ElfNote := ⟨ntGnuBuildId, [71, 78, 85, 0], [0xab, 0x01]⟩

theorem noteWalk_gnuNote :
    noteWalk .plain true (sectionBytes [gnuNote]) ((sectionBytes [gnuNote]).length + 1) 0 =
      .found (some (cstr "ab01")) :=
  (noteWalk_spec .plain).2.1 [gnuNote] (by decide)

end Profiling
