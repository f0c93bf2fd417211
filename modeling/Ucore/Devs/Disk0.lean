import Ucore.Fs.Sfs
import Ucore.Library.Copy
import Ucore.Library.Run

/-!
The disk of the file system: `dev_disk0.c` on `ide.c` and `ramdisk.c`, with the buffer of four
blocks between the disk and whoever asks. A request is an `iobuf`. The semaphore `disk0_sem` lets
one request in at a time.
-/
namespace Ucore.Devs.Disk0

open Library Libs
open Fs (Bytes)

def sectSize : ℕ := 512

def disk0Blksize : ℕ := 4096

def disk0Bufsize : ℕ := 4 * disk0Blksize

def disk0BlkNsect : ℕ := disk0Blksize / sectSize

def maxNsecs : ℕ := 128

def maxDiskNsecs : ℕ := 0x10000000

def eInval : ℤ := 3

/-- `size` counts sectors. -/
structure IdeDevice where
  valid : Bool
  size : ℕ

/-- `ramdisk_init`, for an image of `len` bytes. -/
def ramdiskInit (len : ℕ) : IdeDevice :=
  if len = 0 then ⟨false, 0⟩ else ⟨true, uint32 len / sectSize⟩

/-- `d_blocks` -/
def dBlocks (dev : IdeDevice) : ℕ := (if dev.valid then dev.size else 0) / disk0BlkNsect

structure Iobuf where
  base : ℕ
  offset : ℤ
  resid : ℕ

/-- The image from `iobase` on, `disk0_buffer`, and the memory that `io_base` points into. -/
structure Transfer where
  image : Bytes
  buffer : Bytes
  mem : Bytes
  iob : Iobuf

/-- Assignment of an `off_t` to a `uint32_t`. -/
def offUint32 (v : ℤ) : ℕ := (v % 2 ^ 32).toNat

namespace Transfer

/-- The sectors that `ramdisk_read` and `ramdisk_write` go over. -/
def ramdiskNsecs (dev : IdeDevice) (secno nsecs : ℕ) : ℕ :=
  min nsecs (uint64 (dev.size + 2 ^ 64 - secno))

def ramdiskRead (t : Transfer) (dev : IdeDevice) (secno nsecs : ℕ) : Transfer :=
  let len := ramdiskNsecs dev secno nsecs * sectSize
  { t with buffer := copyRange t.buffer t.image 0 (secno * sectSize) len }

def ramdiskWrite (t : Transfer) (dev : IdeDevice) (secno nsecs : ℕ) : Transfer :=
  let len := ramdiskNsecs dev secno nsecs * sectSize
  { t with image := copyRange t.image t.buffer (secno * sectSize) 0 len }

/-- The assertions of `ide_read_secs` and `ide_write_secs`. -/
def ideAllows (dev : IdeDevice) (secno nsecs : ℕ) : Bool :=
  decide (nsecs ≤ maxNsecs ∧ dev.valid ∧ secno < maxDiskNsecs ∧ secno + nsecs ≤ maxDiskNsecs)

def ideReadSecs (t : Transfer) (dev : IdeDevice) (secno nsecs : ℕ) : Option Transfer :=
  if ideAllows dev secno nsecs then some (t.ramdiskRead dev secno nsecs) else none

def ideWriteSecs (t : Transfer) (dev : IdeDevice) (secno nsecs : ℕ) : Option Transfer :=
  if ideAllows dev secno nsecs then some (t.ramdiskWrite dev secno nsecs) else none

def disk0ReadBlksNolock (t : Transfer) (dev : IdeDevice) (blkno nblks : ℕ) : Option Transfer :=
  t.ideReadSecs dev (uint32 (blkno * disk0BlkNsect)) (uint32 (nblks * disk0BlkNsect))

def disk0WriteBlksNolock (t : Transfer) (dev : IdeDevice) (blkno nblks : ℕ) : Option Transfer :=
  t.ideWriteSecs dev (uint32 (blkno * disk0BlkNsect)) (uint32 (nblks * disk0BlkNsect))

def iobufSkip (t : Transfer) (n : ℕ) : Transfer :=
  { t with iob := ⟨t.iob.base + n, t.iob.offset + n, t.iob.resid - n⟩ }

/-- `iobuf_move` between the buffer of the disk and the memory, and what it copied. -/
def iobufMove (t : Transfer) (len : ℕ) (m2b : Bool) : Transfer × ℕ :=
  let alen := min t.iob.resid len
  let t := if m2b then { t with mem := copyRange t.mem t.buffer t.iob.base 0 alen }
    else { t with buffer := copyRange t.buffer t.mem 0 t.iob.base alen }
  (t.iobufSkip alen, alen)

/-- The loop of `disk0_io`; the first argument bounds its turns. -/
def ioLoop (dev : IdeDevice) (write : Bool) : ℕ → Transfer → ℕ → ℕ → Option Transfer
  | 0, t, resid, _ => if resid = 0 then some t else none
  | turns + 1, t, resid, blkno =>
    if resid = 0 then some t
    else if write then
      let (t, copied) := t.iobufMove disk0Bufsize false
      if copied ≠ 0 ∧ copied ≤ resid ∧ copied % disk0Blksize = 0 then
        let nblks := uint32 (copied / disk0Blksize)
        (t.disk0WriteBlksNolock dev blkno nblks).bind fun t =>
          ioLoop dev write turns t (resid - copied) (uint32 (blkno + nblks))
      else none
    else
      let alen := if disk0Bufsize > resid then resid else disk0Bufsize
      let nblks := uint32 (alen / disk0Blksize)
      (t.disk0ReadBlksNolock dev blkno nblks).bind fun t =>
        let (t, copied) := t.iobufMove alen true
        if copied = alen ∧ copied % disk0Blksize = 0 then
          ioLoop dev write turns t (resid - copied) (uint32 (blkno + nblks))
        else none

/-- `disk0_io`; `none` is a panic. -/
def disk0Io (t : Transfer) (dev : IdeDevice) (write : Bool) : Option (ℤ × Transfer) :=
  let blkno := offUint32 (t.iob.offset.tdiv disk0Blksize)
  let nblks := uint32 (t.iob.resid / disk0Blksize)
  if t.iob.offset.tmod disk0Blksize ≠ 0 ∨ t.iob.resid % disk0Blksize ≠ 0 then some (-eInval, t)
  else if dBlocks dev < uint32 (blkno + nblks) then some (-eInval, t)
  else if nblks = 0 then some (0, t)
  else (ioLoop dev write t.iob.resid t t.iob.resid blkno).map fun t => (0, t)

variable {dev : IdeDevice} {t u : Transfer} {blkno nblks n turns : ℕ} {write : Bool}

/-- A device that `ramdisk_init` has made of an image. -/
structure Works (dev : IdeDevice) : Prop where
  valid : dev.valid = true
  size : dev.size < 2 ^ 23

theorem dBlocks_works (h : Works dev) : dBlocks dev = dev.size / 8 := by
  unfold dBlocks
  rw [h.valid, if_pos rfl]
  rfl

/-- The blocks that `disk0_io` allows are sectors that `ide.c` and `ramdisk.c` allow. -/
theorem sectors_spec (h : Works dev) (hblk : blkno + nblks ≤ dBlocks dev) (hfew : nblks ≤ 4) :
    ideAllows dev (uint32 (blkno * disk0BlkNsect)) (uint32 (nblks * disk0BlkNsect)) = true ∧
      uint32 (blkno * disk0BlkNsect) * sectSize = disk0Blksize * blkno ∧
      ramdiskNsecs dev (uint32 (blkno * disk0BlkNsect)) (uint32 (nblks * disk0BlkNsect)) *
        sectSize = disk0Blksize * nblks := by
  rw [dBlocks_works h] at hblk
  have hsize := h.size
  have hsectors : blkno * 8 + nblks * 8 ≤ dev.size := by omega
  have hsecno : uint32 (blkno * disk0BlkNsect) = blkno * 8 :=
    uint32_of_lt (by change blkno * 8 < _; omega)
  have hnsecs : uint32 (nblks * disk0BlkNsect) = nblks * 8 :=
    uint32_of_lt (by change nblks * 8 < _; omega)
  rw [hsecno, hnsecs]
  refine ⟨?_, ?_, ?_⟩
  · unfold ideAllows maxNsecs maxDiskNsecs
    exact decide_eq_true ⟨by omega, h.valid, by omega, by omega⟩
  · unfold sectSize disk0Blksize
    omega
  · have hrest : uint64 (dev.size + 2 ^ 64 - blkno * 8) = dev.size - blkno * 8 := by
      unfold uint64
      omega
    unfold ramdiskNsecs sectSize disk0Blksize
    rw [hrest, min_eq_left (by omega)]
    omega

theorem disk0ReadBlksNolock_spec (h : Works dev) (hblk : blkno + nblks ≤ dBlocks dev)
    (hfew : nblks ≤ 4) : t.disk0ReadBlksNolock dev blkno nblks = some { t with
      buffer := copyRange t.buffer t.image 0 (disk0Blksize * blkno) (disk0Blksize * nblks) } := by
  obtain ⟨hallows, hsecno, hnsecs⟩ := sectors_spec h hblk hfew
  unfold disk0ReadBlksNolock ideReadSecs ramdiskRead
  rw [if_pos hallows, hsecno, hnsecs]

theorem disk0WriteBlksNolock_spec (h : Works dev) (hblk : blkno + nblks ≤ dBlocks dev)
    (hfew : nblks ≤ 4) : t.disk0WriteBlksNolock dev blkno nblks = some { t with
      image := copyRange t.image t.buffer (disk0Blksize * blkno) 0 (disk0Blksize * nblks) } := by
  obtain ⟨hallows, hsecno, hnsecs⟩ := sectors_spec h hblk hfew
  unfold disk0WriteBlksNolock ideWriteSecs ramdiskWrite
  rw [if_pos hallows, hsecno, hnsecs]

/-- What is left of a request behind `k` blocks. -/
def behind (t : Transfer) (write : Bool) (blkno k : ℕ) (u : Transfer) : Prop :=
  u.iob = ⟨t.iob.base + disk0Blksize * k, t.iob.offset + (disk0Blksize * k : ℕ),
    t.iob.resid - disk0Blksize * k⟩ ∧
  u.image = (if write then
    copyRange t.image t.mem (disk0Blksize * blkno) t.iob.base (disk0Blksize * k) else t.image) ∧
  u.mem = (if write then t.mem else
    copyRange t.mem t.image t.iob.base (disk0Blksize * blkno) (disk0Blksize * k))

/-- One turn of the loop moves as many blocks as are left, and four at most. -/
theorem ioLoop_turn (write : Bool) (turns : ℕ) (h : Works dev)
    (hblk : blkno + n ≤ dBlocks dev) (hn : n ≠ 0) (hresid : t.iob.resid = disk0Blksize * n) :
    ∃ u, ioLoop dev write (turns + 1) t (disk0Blksize * n) blkno =
        ioLoop dev write turns u (disk0Blksize * n - disk0Blksize * min n 4) (blkno + min n 4) ∧
      t.behind write blkno (min n 4) u := by
  have hsize := h.size
  have hle := hblk
  rw [dBlocks_works h] at hle
  have hne : disk0Blksize * n ≠ 0 := Nat.mul_ne_zero (by decide) hn
  have halen : min (disk0Blksize * n) disk0Bufsize = disk0Blksize * min n 4 := by
    unfold disk0Bufsize disk0Blksize
    omega
  have hnblks : uint32 (disk0Blksize * min n 4 / disk0Blksize) = min n 4 := by
    rw [Nat.mul_div_cancel_left _ (by decide : 0 < disk0Blksize)]
    exact uint32_of_lt (by omega)
  have hnext : uint32 (blkno + min n 4) = blkno + min n 4 := uint32_of_lt (by omega)
  have hmod : disk0Blksize * min n 4 % disk0Blksize = 0 := Nat.mul_mod_right _ _
  have hpart : blkno + min n 4 ≤ dBlocks dev := by omega
  have hfew : min n 4 ≤ 4 := min_le_right n 4
  rw [ioLoop, if_neg hne]
  cases write with
  | true =>
    have hcopied : disk0Blksize * min n 4 ≠ 0 := Nat.mul_ne_zero (by decide) (by omega)
    have hless : disk0Blksize * min n 4 ≤ disk0Blksize * n := Nat.mul_le_mul_left _ (by omega)
    unfold iobufMove
    rw [if_pos rfl]
    dsimp only
    rw [hresid, halen, if_pos ⟨hcopied, hless, hmod⟩, hnblks,
      disk0WriteBlksNolock_spec h hpart hfew, Option.bind_some, hnext]
    refine ⟨_, rfl, rfl, ?_, rfl⟩
    exact copyRange_through ..
  | false =>
    have hasked : (if disk0Bufsize > disk0Blksize * n then disk0Blksize * n else disk0Bufsize) =
        disk0Blksize * min n 4 := by
      rw [← halen]
      split <;> omega
    have hleft : min (disk0Blksize * n) (disk0Blksize * min n 4) = disk0Blksize * min n 4 :=
      min_eq_right (Nat.mul_le_mul_left _ (by omega))
    dsimp only
    rw [if_neg Bool.false_ne_true, hasked, hnblks, disk0ReadBlksNolock_spec h hpart hfew,
      Option.bind_some]
    unfold iobufMove
    dsimp only
    rw [hresid, hleft, if_pos ⟨rfl, hmod⟩, hnext]
    refine ⟨_, rfl, rfl, rfl, ?_⟩
    exact copyRange_through ..

/-- What is left behind `k` blocks and then `m` more. -/
theorem behind_append {k m : ℕ} {v : Transfer} (h : t.behind write blkno k u)
    (h' : u.behind write (blkno + k) m v) : t.behind write blkno (k + m) v := by
  obtain ⟨hiob, himage, hmem⟩ := h
  obtain ⟨hiob', himage', hmem'⟩ := h'
  refine ⟨?_, ?_, ?_⟩
  · rw [hiob', hiob]
    simp only [Nat.mul_add, Nat.cast_add, Nat.sub_sub, add_assoc]
  · rw [himage']
    cases write with
    | true =>
      rw [if_pos rfl] at himage ⊢
      rw [if_pos rfl] at hmem ⊢
      rw [himage, hmem, hiob, Nat.mul_add, Nat.mul_add]
      exact copyRange_append ..
    | false => exact himage
  · rw [hmem']
    cases write with
    | true => exact hmem
    | false =>
      rw [if_neg Bool.false_ne_true] at himage hmem ⊢
      rw [if_neg Bool.false_ne_true]
      rw [himage, hmem, hiob, Nat.mul_add, Nat.mul_add]
      exact copyRange_append ..

theorem behind_zero (t : Transfer) (write : Bool) (blkno : ℕ) : t.behind write blkno 0 t := by
  refine ⟨?_, ?_, ?_⟩
  · rw [Nat.mul_zero, Nat.add_zero, Nat.cast_zero, add_zero, Nat.sub_zero]
  · cases write with
    | true => exact (copyRange_zero ..).symm
    | false => rfl
  · cases write with
    | true => rfl
    | false => exact (copyRange_zero ..).symm

theorem ioLoop_spec (h : Works dev) (hblk : blkno + n ≤ dBlocks dev)
    (hresid : t.iob.resid = disk0Blksize * n) (hturns : n ≤ turns) :
    ∃ u, ioLoop dev write turns t (disk0Blksize * n) blkno = some u ∧
      t.behind write blkno n u := by
  induction turns generalizing t blkno n with
  | zero =>
    obtain rfl := Nat.le_zero.mp hturns
    exact ⟨t, rfl, behind_zero t write blkno⟩
  | succ turns ih =>
    by_cases hn : n = 0
    · rw [hn]
      exact ⟨t, rfl, behind_zero t write blkno⟩
    obtain ⟨u, hturn, hu⟩ := ioLoop_turn write turns h hblk hn hresid
    have hleft : disk0Blksize * n - disk0Blksize * min n 4 = disk0Blksize * (n - min n 4) :=
      (Nat.mul_sub ..).symm
    have hresid' : u.iob.resid = disk0Blksize * (n - min n 4) := by
      rw [hu.1, hresid]
      exact hleft
    have hblk' : blkno + min n 4 + (n - min n 4) ≤ dBlocks dev := by omega
    obtain ⟨v, hrest, hv⟩ := ih hblk' hresid' (by omega)
    have hall := behind_append hu hv
    rw [Nat.add_sub_cancel' (Nat.min_le_left n 4)] at hall
    rw [hturn, hleft]
    exact ⟨v, hrest, hall⟩

/-- A request that lies in the disk and in whole blocks is carried out; any other one fails and
leaves everything as it was. -/
theorem disk0Io_spec (write : Bool) (h : Works dev) {offset len : ℕ}
    (hoffset : t.iob.offset = offset) (hresid : t.iob.resid = len)
    (hrange : offset / disk0Blksize + len / disk0Blksize < 2 ^ 32) :
    if disk0Blksize ∣ offset ∧ disk0Blksize ∣ len ∧
        offset / disk0Blksize + len / disk0Blksize ≤ dBlocks dev then
      ∃ u, t.disk0Io dev write = some (0, u) ∧
        t.behind write (offset / disk0Blksize) (len / disk0Blksize) u
    else t.disk0Io dev write = some (-eInval, t) := by
  have hsize := h.size
  have hblocks := dBlocks_works h
  have hdiv : t.iob.offset.tdiv disk0Blksize = (offset / disk0Blksize : ℕ) := by
    rw [hoffset]
    rfl
  have hblkno : offUint32 (t.iob.offset.tdiv disk0Blksize) = offset / disk0Blksize := by
    rw [hdiv]
    have hlt : offset / disk0Blksize < 2 ^ 32 := (Nat.le_add_right ..).trans_lt hrange
    generalize offset / disk0Blksize = b at hlt
    unfold offUint32
    omega
  have hnblks : uint32 (t.iob.resid / disk0Blksize) = len / disk0Blksize := by
    rw [hresid]
    exact uint32_of_lt ((Nat.le_add_left ..).trans_lt hrange)
  have hsum : uint32 (offset / disk0Blksize + len / disk0Blksize) =
      offset / disk0Blksize + len / disk0Blksize := uint32_of_lt hrange
  have haligned : (t.iob.offset.tmod disk0Blksize ≠ 0 ∨ t.iob.resid % disk0Blksize ≠ 0) ↔
      ¬ (disk0Blksize ∣ offset ∧ disk0Blksize ∣ len) := by
    have hmod : t.iob.offset.tmod disk0Blksize = (offset % disk0Blksize : ℕ) := by
      rw [hoffset]
      rfl
    rw [hmod, hresid, Nat.dvd_iff_mod_eq_zero, Nat.dvd_iff_mod_eq_zero, Nat.cast_ne_zero]
    exact (not_and_or).symm
  unfold disk0Io
  dsimp only
  rw [hblkno, hnblks, hsum]
  by_cases hwhole : disk0Blksize ∣ offset ∧ disk0Blksize ∣ len
  · rw [if_neg (haligned.not.mpr (not_not.mpr hwhole))]
    by_cases hinside : offset / disk0Blksize + len / disk0Blksize ≤ dBlocks dev
    · rw [if_neg (Nat.not_lt.mpr hinside), if_pos ⟨hwhole.1, hwhole.2, hinside⟩]
      have hlen : t.iob.resid = disk0Blksize * (len / disk0Blksize) := by
        rw [hresid, Nat.mul_div_cancel' hwhole.2]
      by_cases hzero : len / disk0Blksize = 0
      · rw [if_pos hzero, hzero]
        exact ⟨t, rfl, behind_zero t write _⟩
      · rw [if_neg hzero]
        have hturns : len / disk0Blksize ≤ t.iob.resid := by
          rw [hresid]
          exact Nat.div_le_self ..
        obtain ⟨u, hloop, hu⟩ := ioLoop_spec (t := t) h hinside hlen hturns
        rw [← hlen] at hloop
        rw [hloop]
        exact ⟨u, rfl, hu⟩
    · rw [if_pos (Nat.not_le.mp hinside), if_neg fun hall => hinside hall.2.2]
  · rw [if_pos (haligned.mpr hwhole), if_neg fun hall => hwhole ⟨hall.1, hall.2.1⟩]

end Transfer
end Ucore.Devs.Disk0
