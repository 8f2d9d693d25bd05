import FerricK.Lib.Bytes
import FerricK.Lib.Rust

namespace FerricK.Image

open Rust Bytes

def sectorSize : Nat := 512
def heads : Nat := 64
def sectorsPerTrack : Nat := 32
def firstPartStartSector : Nat := 2048
def fatTypeWithLba : UInt8 := 0x0E

def fromLba (lba : Nat) : List UInt8 :=
  let head := min (lba / sectorsPerTrack % heads) 255 % 2 ^ 8
  let cyl := min (lba / (sectorsPerTrack * heads)) 1023 % 2 ^ 16
  let sect := min (lba % sectorsPerTrack + 1) 63 % 2 ^ 8
  [.ofNat head, .ofNat ((sect &&& 0x3F) ||| ((cyl >>> 8 &&& 0x3) % 2 ^ 8) <<< 6),
    .ofNat (cyl &&& 0xFF)]

structure ChsPair where
  start : List UInt8
  last : List UInt8

def chsBytes (startSector partSectors : Nat) : Rust ChsPair := do
  let last ← usub (← uadd 32 startSector partSectors) 1
  return { start := fromLba startSector, last := fromLba last }

def mbrBytes (chs : ChsPair) (partSectors : Nat) : Nat → UInt8 :=
  let mbr := store (fun _ => 0) 446 [0x80]
  let mbr := store mbr 447 chs.start
  let mbr := store mbr 450 [fatTypeWithLba]
  let mbr := store mbr 451 chs.last
  let mbr := store mbr 454 (toLE 4 firstPartStartSector)
  let mbr := store mbr 458 (toLE 4 partSectors)
  store mbr 510 [0x55, 0xAA]

/-- What the calls answer that `assemble` hands on with `?`: the text of the error, if any.
`inputs` is the search for the tools and the files, `stage` all that follows `mformat`. -/
structure Host where
  inputs : Option String
  createDir : Option String
  createImage : Option String
  setLen : Option String
  writeMbr : Option String
  mformat : Option String
  stage : Option String

def attempt (call : Option String) (k : Rust (Except String α)) : Rust (Except String α) :=
  match call with
  | some e => return .error e
  | none => k

/-- The length of the file in sectors, its first sector, and the arguments of `mformat`. -/
structure DiskImage where
  sectors : Nat
  mbr : Nat → UInt8
  offset : Nat
  tracks : Nat
  heads : Nat
  sectorsPerTrack : Nat

/-- The file was just created and sized, so the seek to its start, which is unwrapped before the
write of the partition table, has nothing to fail on and is left out. -/
def assemble (host : Host) (sizeMb : UInt32) : Rust (Except String DiskImage) :=
  attempt host.inputs <| attempt host.createDir do
  let bytes ← umul 64 (← umul 64 sizeMb.toNat 1024) 1024
  let totalSectors ← udiv bytes sectorSize
  let partSectors ← usub totalSectors firstPartStartSector
  attempt host.createImage do
  let _ ← umul 64 totalSectors sectorSize
  attempt host.setLen do
  let chs ← chsBytes firstPartStartSector
    (← usub (totalSectors % 2 ^ 32) firstPartStartSector)
  attempt host.writeMbr do
  let offset ← umul 64 firstPartStartSector sectorSize
  let tracks ← udiv partSectors (← umul 32 heads sectorsPerTrack)
  attempt host.mformat <| attempt host.stage do
  return .ok {
    sectors := totalSectors
    mbr := mbrBytes chs (partSectors % 2 ^ 32)
    offset := offset
    tracks := tracks % 2 ^ 32
    heads := heads
    sectorsPerTrack := sectorsPerTrack }

def Addresses (b : List UInt8) (lba : Nat) : Prop :=
  ∃ h s c, b = [h, s, c] ∧ h.toNat < heads ∧ 0 < s.toNat % 64 ∧ s.toNat % 64 ≤ sectorsPerTrack ∧
    ((s.toNat / 64 * 256 + c.toNat) * heads + h.toNat) * sectorsPerTrack + (s.toNat % 64 - 1) = lba

namespace DiskImage

def lbaStart (image : DiskImage) : Nat := ofLE (Bytes.load image.mbr 454 4)
def sectorCount (image : DiskImage) : Nat := ofLE (Bytes.load image.mbr 458 4)

end DiskImage

structure Consistent (image : DiskImage) : Prop where
  fills : image.lbaStart + image.sectorCount = image.sectors
  nonempty : 0 < image.sectorCount
  format : image.tracks * image.heads * image.sectorsPerTrack = image.sectorCount
  chs : image.sectors - 1 < 1024 * 64 * 32 →
    Addresses (Bytes.load image.mbr 447 3) image.lbaStart ∧
    Addresses (Bytes.load image.mbr 451 3) (image.sectors - 1)
  /-- What `assemble` casts to `u32` is no more than this. -/
  lossless : image.sectors < 2 ^ 32

def Meets (r : Rust (Except String DiskImage)) : Prop :=
  (∃ e, r = .ok (.error e)) ∨ ∃ image, r = .ok (.ok image) ∧ Consistent image

variable {lba : Nat} {sizeMb : UInt32} {host : Host}

theorem or_shift {a b : Nat} (ha : a < 2 ^ 6) : a ||| b <<< 6 = b * 64 + a := by
  rw [Nat.or_comm, ← Nat.shiftLeft_add_eq_or_of_lt ha, Nat.shiftLeft_eq]

/-- The high bits of the cylinder lie above the sector's. -/
theorem addresses_packed {head sect cyl : Nat} (hhead : head < heads)
    (hsect : sect < sectorsPerTrack) (hcyl : cyl < 1024) :
    Addresses [.ofNat head, .ofNat (cyl / 256 * 64 + (sect + 1)), .ofNat (cyl % 256)]
      ((cyl * heads + head) * sectorsPerTrack + sect) := by
  simp only [heads, sectorsPerTrack] at hhead hsect
  have hbyte : head < 2 ^ 8 := by omega
  have hpacked : cyl / 256 * 64 + (sect + 1) < 2 ^ 8 := by omega
  have hhigh : (cyl / 256 * 64 + (sect + 1)) / 64 = cyl / 256 := by omega
  have hlow : (cyl / 256 * 64 + (sect + 1)) % 64 = sect + 1 := by omega
  refine ⟨_, _, _, rfl, ?_⟩
  simp only [UInt8.toNat_ofNat', Nat.mod_eq_of_lt hbyte, Nat.mod_eq_of_lt hpacked, hhigh, hlow,
    heads, sectorsPerTrack]
  omega

theorem addresses_fromLba (h : lba < 1024 * 64 * 32) : Addresses (fromLba lba) lba := by
  have hhead : min (lba / 32 % 64) 255 % 2 ^ 8 = lba / 32 % 64 := by omega
  have hcyl : min (lba / (32 * 64)) 1023 % 2 ^ 16 = lba / 2048 := by omega
  have hsect : min (lba % 32 + 1) 63 % 2 ^ 8 = lba % 32 + 1 := by omega
  have hlow : (lba % 32 + 1) &&& 0x3F = lba % 32 + 1 := by
    rw [show 0x3F = 2 ^ 6 - 1 from rfl, Nat.and_two_pow_sub_one_of_lt_two_pow (by omega)]
  have hhigh : (lba / 2048) >>> 8 &&& 0x3 = lba / 2048 / 256 := by
    rw [show 0x3 = 2 ^ 2 - 1 from rfl, Nat.shiftRight_eq_div_pow,
      Nat.and_two_pow_sub_one_of_lt_two_pow (by omega)]
  have hpack : (lba % 32 + 1 ||| (lba / 2048 / 256 % 2 ^ 8) <<< 6) =
      lba / 2048 / 256 * 64 + (lba % 32 + 1) := by
    have hsmall : lba % 32 + 1 < 2 ^ 6 := by omega
    have hbits : lba / 2048 / 256 < 2 ^ 8 := by omega
    rw [Nat.mod_eq_of_lt hbits, or_shift hsmall]
  have hcylinder : lba / 2048 &&& 0xFF = lba / 2048 % 256 := by
    rw [show 0xFF = 2 ^ 8 - 1 from rfl, Nat.and_two_pow_sub_one_eq_mod]
  have hbytes : fromLba lba = [.ofNat (lba / 32 % 64),
      .ofNat (lba / 2048 / 256 * 64 + (lba % 32 + 1)), .ofNat (lba / 2048 % 256)] := by
    simp only [fromLba, sectorsPerTrack, heads, hhead, hcyl, hsect, hlow, hhigh, hpack, hcylinder]
  have hlba : (lba / 2048 * 64 + lba / 32 % 64) * 32 + lba % 32 = lba := by omega
  have haddresses := addresses_packed (show lba / 32 % 64 < 64 by omega)
    (show lba % 32 < 32 by omega) (show lba / 2048 < 1024 by omega)
  rw [hbytes]
  rwa [heads, sectorsPerTrack, hlba] at haddresses

theorem load_mbrBytes (chs : ChsPair) (hstart : chs.start.length = 3) (hlast : chs.last.length = 3)
    (partSectors : Nat) :
    Bytes.load (mbrBytes chs partSectors) 447 3 = chs.start ∧
    Bytes.load (mbrBytes chs partSectors) 451 3 = chs.last ∧
    Bytes.load (mbrBytes chs partSectors) 454 4 = toLE 4 firstPartStartSector ∧
    Bytes.load (mbrBytes chs partSectors) 458 4 = toLE 4 partSectors := by
  unfold mbrBytes
  refine ⟨?_, ?_, ?_, ?_⟩
  · iterate 5 rw [load_store_of_disjoint (by simp [hlast])]
    rw [load_store_nat hstart]
  · iterate 3 rw [load_store_of_disjoint (by simp)]
    rw [load_store_nat hlast]
  · iterate 2 rw [load_store_of_disjoint (by simp)]
    rw [load_store_nat (length_toLE ..)]
  · rw [load_store_of_disjoint (by simp), load_store_nat (length_toLE ..)]

def made (n : Nat) : DiskImage where
  sectors := n * 2048
  mbr := mbrBytes ⟨fromLba 2048, fromLba (n * 2048 % 2 ^ 32 - 1)⟩ ((n * 2048 - 2048) % 2 ^ 32)
  offset := 2048 * 512
  tracks := (n * 2048 - 2048) / 2048 % 2 ^ 32
  heads := heads
  sectorsPerTrack := sectorsPerTrack

def working : Host := ⟨none, none, none, none, none, none, none⟩

theorem Meets.attempt {r : Rust (Except String DiskImage)} (h : Meets r) (call : Option String) :
    Meets (attempt call r) := by
  cases call with
  | none => exact h
  | some e => exact .inl ⟨e, rfl⟩

theorem totalSectors_eq (sizeMb : UInt32) : umul 64 sizeMb.toNat 1024 = .ok (sizeMb.toNat * 1024) ∧
    umul 64 (sizeMb.toNat * 1024) 1024 = .ok (sizeMb.toNat * 1024 * 1024) ∧
    udiv (sizeMb.toNat * 1024 * 1024) sectorSize = .ok (sizeMb.toNat * 2048) := by
  have hlt := sizeMb.toNat_lt
  refine ⟨umul_of_lt (by omega), umul_of_lt (by omega), ?_⟩
  rw [udiv_of_pos (by decide), sectorSize]
  congr 1
  omega

/-- The size in sectors has to be no less than the first sector, also as a `u32`. -/
theorem assemble_eq (h : 2048 ≤ sizeMb.toNat * 2048 % 2 ^ 32) (host : Host) :
    assemble host sizeMb = attempt host.inputs (attempt host.createDir (attempt host.createImage
      (attempt host.setLen (attempt host.writeMbr (attempt host.mformat (attempt host.stage
        (.ok (.ok (made sizeMb.toNat))))))))) := by
  obtain ⟨hkib, hbytes, hsectors⟩ := totalSectors_eq sizeMb
  have hlt := sizeMb.toNat_lt
  have hstart : firstPartStartSector = 2048 := rfl
  have hchs : chsBytes 2048 (sizeMb.toNat * 2048 % 2 ^ 32 - 2048) =
      .ok ⟨fromLba 2048, fromLba (sizeMb.toNat * 2048 % 2 ^ 32 - 1)⟩ := by
    rw [chsBytes, uadd_of_lt (by omega), ok_bind, usub_of_le (by omega), ok_bind,
      Nat.add_sub_cancel' h, pure_eq_ok]
  rw [assemble, hkib, ok_bind, hbytes, ok_bind, hsectors, ok_bind, hstart,
    usub_of_le (by omega), ok_bind, umul_of_lt (by simp only [sectorSize]; omega), ok_bind,
    usub_of_le h, ok_bind, hchs, ok_bind]
  rfl

theorem assemble_stops (h : ¬2048 ≤ sizeMb.toNat * 2048 % 2 ^ 32) :
    assemble working sizeMb = .error .overflow := by
  obtain ⟨hkib, hbytes, hsectors⟩ := totalSectors_eq sizeMb
  have hlt := sizeMb.toNat_lt
  have hstart : firstPartStartSector = 2048 := rfl
  have hcast : usub (sizeMb.toNat * 2048 % 2 ^ 32) 2048 = .error .overflow := if_neg h
  rw [assemble, hkib, ok_bind, hbytes, ok_bind, hsectors, ok_bind, hstart]
  by_cases hpart : 2048 ≤ sizeMb.toNat * 2048
  · rw [usub_of_le hpart, ok_bind, umul_of_lt (by simp only [sectorSize]; omega), ok_bind, hcast]
    rfl
  · rw [usub, if_neg hpart]
    rfl

theorem load_made (n : Nat) :
    Bytes.load (made n).mbr 447 3 = fromLba 2048 ∧
    Bytes.load (made n).mbr 451 3 = fromLba (n * 2048 % 2 ^ 32 - 1) ∧
    (made n).lbaStart = 2048 ∧ (made n).sectorCount = (n * 2048 - 2048) % 2 ^ 32 := by
  have hlt : (n * 2048 - 2048) % 2 ^ 32 < 256 ^ 4 := Nat.mod_lt _ (by decide)
  obtain ⟨hfirst, hlast, hstart, hcount⟩ := load_mbrBytes ⟨fromLba 2048,
    fromLba (n * 2048 % 2 ^ 32 - 1)⟩ rfl rfl ((n * 2048 - 2048) % 2 ^ 32)
  refine ⟨hfirst, hlast, ?_, ?_⟩
  · exact (congrArg ofLE hstart).trans (ofLE_toLE (by decide))
  · exact (congrArg ofLE hcount).trans (ofLE_toLE hlt)

theorem consistent_made (n : Nat) : Consistent (made n) ↔ 2 ≤ n ∧ n < 2 ^ 21 := by
  obtain ⟨hfirst, hlast, hstart, hcount⟩ := load_made n
  constructor
  · rintro ⟨-, hnonempty, -, -, hlossless⟩
    rw [hcount] at hnonempty
    change n * 2048 < 2 ^ 32 at hlossless
    omega
  · rintro ⟨htwo, hlt⟩
    have hsectors : n * 2048 % 2 ^ 32 = n * 2048 := Nat.mod_eq_of_lt (by omega)
    rw [Nat.mod_eq_of_lt (by omega)] at hcount
    refine ⟨?_, by omega, ?_, ?_, show n * 2048 < 2 ^ 32 by omega⟩
    · rw [hstart, hcount]
      exact Nat.add_sub_cancel' (by omega)
    · rw [hcount]
      change (n * 2048 - 2048) / 2048 % 2 ^ 32 * 64 * 32 = n * 2048 - 2048
      omega
    · intro hend
      change n * 2048 - 1 < 1024 * 64 * 32 at hend
      rw [hsectors] at hlast
      rw [hfirst, hlast, hstart]
      exact ⟨addresses_fromLba (by decide), addresses_fromLba hend⟩

theorem meets_working_iff :
    Meets (assemble working sizeMb) ↔ 2 ≤ sizeMb.toNat ∧ sizeMb.toNat < 2 ^ 21 := by
  by_cases hwraps : 2048 ≤ sizeMb.toNat * 2048 % 2 ^ 32
  · have hmade : assemble working sizeMb = .ok (.ok (made sizeMb.toNat)) :=
      assemble_eq hwraps working
    rw [hmade, ← consistent_made]
    constructor
    · rintro (⟨e, he⟩ | ⟨image, himage, hconsistent⟩)
      · exact nomatch he
      · cases himage
        exact hconsistent
    · exact fun hconsistent => .inr ⟨_, rfl, hconsistent⟩
  · rw [assemble_stops hwraps]
    refine iff_of_false ?_ (by omega)
    rintro (⟨e, he⟩ | ⟨image, himage, -⟩)
    · exact nomatch he
    · exact nomatch himage

/-- From two megabytes on there is a partition, and up to two million its sectors are counted
in 32 bits. -/
theorem assemble_meets_iff (sizeMb : UInt32) :
    (∀ host, Meets (assemble host sizeMb)) ↔ 2 ≤ sizeMb.toNat ∧ sizeMb.toNat < 2 ^ 21 := by
  constructor
  · exact fun hall => meets_working_iff.mp (hall working)
  · intro hsize host
    have hmade : Meets (.ok (.ok (made sizeMb.toNat))) :=
      .inr ⟨_, rfl, (consistent_made _).mpr hsize⟩
    rw [assemble_eq (by omega) host]
    iterate 7 apply Meets.attempt
    exact hmade

/-- The first stops in the subtraction, the second makes an empty partition, and the sectors of the
third do not fit the entry. -/
theorem assemble_misses_sizes : ¬ Meets (assemble working 0) ∧ ¬ Meets (assemble working 1) ∧
    ¬ Meets (assemble working 2097153) := by
  rw [meets_working_iff, meets_working_iff, meets_working_iff]
  decide

end FerricK.Image
