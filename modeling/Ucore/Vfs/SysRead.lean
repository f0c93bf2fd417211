import Ucore.Fs.SfsIo
import Ucore.Vm.UserAccess

/-!
`sysfile_read`. The data goes through a buffer of the kernel: `file_read` fills it and moves the
position of the file, then it is copied to the process. The descriptor is a regular file of the
file system or a device.
-/
namespace Ucore.Vfs

open Libs Fs Vm

def ioBufSize : ℕ := 4096

def disk0Bufsize : ℕ := 4 * blkSize

/-- The disk as a device; `refuses` tells which sectors cannot be read. -/
structure Disk0 where
  dBlocks : ℕ
  data : Bytes
  refuses : ℕ → ℕ → Bool

/-- What a descriptor is open on. The console has the bytes that a call is given before it is
woken up for another reason than input. -/
inductive Vnode where
  | file (s : Sfs) (sin : ℕ)
  | stdin (input : List UInt8)
  | disk0 (d : Disk0)

/-- What `vop_read` gives back: its result, the node, the buffer and `iobuf_used`. -/
structure VopRead where
  ret : ℤ
  node : Vnode
  buffer : Bytes
  used : ℕ

def sfsCode : Except SfsError PUnit → ℤ
  | .ok _ => 0
  | .error .inval => -eInval
  | .error .noMem => -eNoMem

/-- `sfs_io` -/
def sfsRead [SfsDevice] (s : Sfs) (sin : ℕ) (buffer : Bytes) (len : ℕ) (offset : ℤ) :
    Option VopRead := do
  let r ← sfsIoNolock s sin buffer offset len false
  -- `iobuf_skip`
  if r.alen ≤ len then some ⟨sfsCode r.ret, .file r.sfs sin, r.buf, r.alen⟩ else none

/-- `stdin_io`; a result that is positive is a number of bytes. -/
def stdinIo (input : List UInt8) (buffer : Bytes) (len : ℕ) : VopRead :=
  let ret := min len input.length
  ⟨ret, .stdin (input.drop ret), patch buffer (fun i => input.getD i 0) 0 ret, ret⟩

/-- `disk0_read_blks_nolock` -/
def Disk0.readBlks (d : Disk0) (blkno nblks : ℕ) : Option Bytes :=
  let sectno := uint32 (blkno * 8)
  let nsecs := uint32 (nblks * 8)
  if d.refuses sectno nsecs then none else some (fun i => d.data (sectno * 512 + i))

/-- The loop of `disk0_io`; the first argument bounds its turns. -/
def Disk0.readLoop (d : Disk0) : ℕ → Bytes → ℕ → ℕ → ℕ → Option Bytes
  | 0, buffer, _, _, _ => some buffer
  | turns + 1, buffer, used, blkno, resid =>
    if resid = 0 then some buffer
    else do
      let alen := min disk0Bufsize resid
      let nblks := uint32 (alen / blkSize)
      let bytes ← d.readBlks blkno nblks
      d.readLoop turns (patch buffer bytes used alen) (used + alen) (uint32 (blkno + nblks))
        (resid - alen)

/-- `disk0_io` -/
def disk0Io (d : Disk0) (buffer : Bytes) (resid : ℕ) (offset : ℤ) : Option VopRead :=
  let blkno := (offset.tdiv blkSize % 2 ^ 32).toNat
  let nblks := uint32 (resid / blkSize)
  if offset.tmod blkSize ≠ 0 ∨ resid % blkSize ≠ 0 then some ⟨-eInval, .disk0 d, buffer, 0⟩
  else if uint32 (blkno + nblks) > d.dBlocks then some ⟨-eInval, .disk0 d, buffer, 0⟩
  else if nblks = 0 then some ⟨0, .disk0 d, buffer, 0⟩
  else (d.readLoop resid buffer 0 blkno resid).map (fun buffer => ⟨0, .disk0 d, buffer, resid⟩)

/-- `struct file` of an open descriptor. -/
structure OpenFile where
  readable : Bool
  pos : Int64
  node : Vnode

namespace OpenFile

/-- The bytes from the position on. -/
def byteAt (f : OpenFile) (i : ℕ) : UInt8 :=
  match f.node with
  | .file s sin => s.content sin (f.pos.toInt.toNat + i)
  | .stdin input => input.getD i 0
  | .disk0 d => d.data (f.pos.toInt.toNat + i)

/-- The file system is in order, the node is a file of it; a position on the disk is one that
`dev_tryseek` or reading can lead to. -/
def Ok (f : OpenFile) : Prop :=
  match f.node with
  | .file s sin => Inv False s ∧ Fits s sin ∧ (s.din sin).type ≠ .dir
  | .stdin _ => True
  | .disk0 d => d.dBlocks ≤ 2 ^ 29 ∧ 0 ≤ f.pos.toInt ∧ f.pos.toInt ≤ d.dBlocks * blkSize

end OpenFile

variable [SfsDevice]

def vopRead (node : Vnode) (buffer : Bytes) (len : ℕ) (offset : ℤ) : Option VopRead :=
  match node with
  | .file s sin => sfsRead s sin buffer len offset
  | .stdin input => some (stdinIo input buffer len)
  | .disk0 d => disk0Io d buffer len offset

/-- What `file_read` gives back: its result, the file, the buffer and `*copied_store`. -/
structure FileRead where
  ret : ℤ
  file : OpenFile
  buffer : Bytes
  alen : ℕ

def fileRead (f : OpenFile) (buffer : Bytes) (len : ℕ) : Option FileRead :=
  if f.readable = false then some ⟨-eInval, f, buffer, 0⟩
  else do
    let r ← vopRead f.node buffer len f.pos.toInt
    some ⟨r.ret, { f with pos := f.pos + Int64.ofNat r.used, node := r.node }, r.buffer, r.used⟩

/-- The bytes at `dst` are replaced. -/
def store (mem : UInt64 → UInt8) (dst : UInt64) (src : Bytes) (len : ℕ) : UInt64 → UInt8 :=
  fun a => if (a - dst).toNat < len then src (a - dst).toNat else mem a

/-- The variables of `sysfile_read`, the memory of the process and the file. -/
structure ReadState where
  mm : Option AreaList
  mem : UInt64 → UInt8
  file : OpenFile
  buffer : Bytes
  base : UInt64
  len : ℕ
  copied : ℕ

/-- `copy_to_user` and what follows it. -/
def ReadState.copyOut (st : ReadState) (ret : ℤ) (alen : ℕ) : ℤ × ReadState :=
  let (ok, mm) := userMemCheck st.mm st.base (UInt64.ofNat alen) true
  if ok then
    (ret, { st with
      mm := mm
      mem := store st.mem st.base st.buffer alen
      base := st.base + UInt64.ofNat alen
      len := st.len - alen
      copied := st.copied + alen })
  else (if ret = 0 then -eInval else ret, { st with mm := mm })

/-- The loop of `sysfile_read`; the first argument bounds its turns. -/
def ReadState.readLoop : ℕ → ReadState → Option (ℤ × ReadState)
  | 0, st => some (0, st)
  | turns + 1, st =>
    if st.len = 0 then some (0, st)
    else do
      let r ← fileRead st.file st.buffer (min ioBufSize st.len)
      let st := { st with file := r.file, buffer := r.buffer }
      let (ret, st) := if r.alen ≠ 0 then st.copyOut r.ret r.alen else (r.ret, st)
      if ret ≠ 0 ∨ r.alen = 0 then some (ret, st) else readLoop turns st

/-- `sysfile_read` on an open file, with its result, which is an `int`, and what it leaves; the
buffer is the result of `kmalloc`. -/
def sysfileRead (mm : Option AreaList) (mem : UInt64 → UInt8) (file : OpenFile)
    (buffer : Option Bytes) (base len : UInt64) : Option (ℤ × ReadState) :=
  let st : ReadState := ⟨mm, mem, file, fun _ => 0, base, len.toNat, 0⟩
  if len = 0 then some (0, st)
  else if file.readable = false then some (-eInval, st)
  else
    match buffer with
    | none => some (-eNoMem, st)
    | some buffer => (({ st with buffer := buffer } : ReadState).readLoop len.toNat).map
        (fun r => (if r.2.copied ≠ 0 then (Int32.ofNat r.2.copied).toInt else r.1, r.2))

/-! One call of `file_read`. -/

omit [SfsDevice] in
theorem toInt_add_ofNat {p : Int64} {n : ℕ} (h0 : 0 ≤ p.toInt) (h : p.toInt + n < 2 ^ 63) :
    (p + Int64.ofNat n).toInt = p.toInt + n := by
  rw [Int64.toInt_add, Int64.toInt_ofNat_of_lt (by omega), Int.bmod_eq_of_le (by omega) (by omega)]

omit [SfsDevice] in
theorem Disk0.readLoop_bytes {d : Disk0} {turns : ℕ} {buffer buffer' : Bytes} {used blkno resid : ℕ}
    (h : d.readLoop turns buffer used blkno resid = some buffer') (hle : resid ≤ turns)
    (hmul : resid % blkSize = 0) (hmax : blkno + resid / blkSize ≤ 2 ^ 29) :
    ∀ i < used + resid, buffer' i =
      if i < used then buffer i else d.data (blkno * blkSize + (i - used)) := by
  induction turns generalizing buffer used blkno resid with
  | zero =>
    obtain rfl := Option.some.inj h
    intro i hi
    rw [if_pos (by omega)]
  | succ turns ih =>
    unfold Disk0.readLoop at h
    by_cases hzero : resid = 0
    · rw [if_pos hzero] at h
      obtain rfl := Option.some.inj h
      intro i hi
      rw [if_pos (by omega)]
    · rw [if_neg hzero] at h
      obtain ⟨alen, halen⟩ : ∃ alen, min disk0Bufsize resid = alen := ⟨_, rfl⟩
      rw [halen] at h
      unfold disk0Bufsize blkSize at halen
      unfold blkSize at hmul hmax
      have hblks : uint32 (alen / blkSize) = alen / blkSize := by
        refine uint32_of_lt ?_
        unfold blkSize
        omega
      have hnext : uint32 (blkno + alen / blkSize) = blkno + alen / blkSize := by
        refine uint32_of_lt ?_
        unfold blkSize
        omega
      simp only [hblks, hnext] at h
      obtain ⟨bytes, hbytes, hrun⟩ := Option.bind_eq_some_iff.mp h
      have hread : bytes = fun i => d.data (blkno * blkSize + i) := by
        have hsect : uint32 (blkno * 8) = blkno * 8 := uint32_of_lt (by omega)
        unfold Disk0.readBlks at hbytes
        simp only [hsect] at hbytes
        split at hbytes
        · exact absurd hbytes (by simp)
        · rw [← Option.some.inj hbytes]
          funext i
          refine congrArg d.data ?_
          unfold blkSize
          omega
      intro i hi
      have hrest := ih hrun (by omega) (by unfold blkSize; omega) (by unfold blkSize; omega) i
        (by omega)
      rw [hrest, hread]
      unfold patch blkSize
      by_cases hused : i < used
      · rw [if_pos (by omega), if_neg (by omega), if_pos hused]
      · rw [if_neg hused]
        by_cases hin : i < used + alen
        · rw [if_pos hin, if_pos ⟨by omega, hin⟩]
        · rw [if_neg hin]
          refine congrArg d.data ?_
          omega

/-- What one call does for an open file: the next bytes of the file come in, and the position
moves behind them. -/
structure Delivered (f : OpenFile) (len : ℕ) (t : FileRead) : Prop where
  le : t.alen ≤ len
  bytes : ∀ i < t.alen, t.buffer i = f.byteAt i
  pos : t.file.pos = f.pos + Int64.ofNat t.alen
  readable : t.file.readable = f.readable
  ok : t.file.Ok
  rest : t.alen ≠ 0 → ∀ i, t.file.byteAt i = f.byteAt (t.alen + i)
  count : 0 < t.ret → t.ret = t.alen

omit [SfsDevice] in
theorem sfsCode_nonpos (r : Except SfsError PUnit) : sfsCode r ≤ 0 := by
  rcases r with (_ | _) | _
  · exact (by decide : -eNoMem ≤ (0 : ℤ))
  · exact (by decide : -eInval ≤ (0 : ℤ))
  · exact le_rfl

theorem sfsRead_delivers {s : Sfs} {sin len : ℕ} {readable : Bool} {pos : Int64} {buffer : Bytes}
    {r : VopRead} (hok : OpenFile.Ok ⟨readable, pos, .file s sin⟩) (hlen : len ≤ ioBufSize)
    (h : sfsRead s sin buffer len pos.toInt = some r) :
    Delivered ⟨readable, pos, .file s sin⟩ len
      ⟨r.ret, ⟨readable, pos + Int64.ofNat r.used, r.node⟩, r.buffer, r.used⟩ := by
  obtain ⟨hi, hf, htype⟩ := hok
  obtain ⟨t, ht, hsfs, hin, hbytes, -⟩ :=
    sfsIoNolock_reads buffer hi hf htype pos.toInt len
  unfold sfsRead at h
  rw [ht] at h
  dsimp only [Option.bind_eq_bind, Option.bind_some] at h
  split at h
  · rename_i hle
    obtain rfl := Option.some.inj h
    rw [hsfs]
    refine ⟨hle, hbytes, rfl, rfl, ⟨hi, hf, htype⟩, ?_, ?_⟩
    · intro hne i
      obtain ⟨h0, hlt⟩ := hin hne
      have hpos : (pos + Int64.ofNat t.alen).toInt = pos.toInt + t.alen := by
        refine toInt_add_ofNat h0 ?_
        unfold maxFileSize ioBufSize at *
        omega
      change s.content sin ((pos + Int64.ofNat t.alen).toInt.toNat + i) =
        s.content sin (pos.toInt.toNat + (t.alen + i))
      rw [hpos]
      congr 1
      omega
    · intro hret
      have hpos : 0 < sfsCode t.ret := hret
      have hcode := sfsCode_nonpos t.ret
      omega
  · exact absurd h (by simp)

omit [SfsDevice] in
theorem stdinIo_delivers {input : List UInt8} {len : ℕ} {readable : Bool} {pos : Int64}
    {buffer : Bytes} {r : VopRead} (h : stdinIo input buffer len = r) :
    Delivered ⟨readable, pos, .stdin input⟩ len
      ⟨r.ret, ⟨readable, pos + Int64.ofNat r.used, r.node⟩, r.buffer, r.used⟩ := by
  subst h
  refine ⟨min_le_left _ _, ?_, rfl, rfl, trivial, ?_, fun _ => rfl⟩
  · intro i hi
    have hlt : i < min len input.length := hi
    change patch buffer (fun i => input.getD i 0) 0 (min len input.length) i = input.getD i 0
    unfold patch
    rw [if_pos ⟨Nat.zero_le i, by omega⟩, Nat.sub_zero]
  · intro _ i
    change (input.drop (min len input.length)).getD i 0 = input.getD (min len input.length + i) 0
    simp only [List.getD_eq_getElem?_getD, List.getElem?_drop]

omit [SfsDevice] in
/-- The block of a position that is not negative. -/
theorem disk0_blkno {p : ℕ} (h : p / blkSize < 2 ^ 32) :
    ((p : ℤ).tdiv blkSize % 2 ^ 32).toNat = p / blkSize := by
  rw [← Int.ofNat_tdiv]
  unfold blkSize at *
  omega

omit [SfsDevice] in
theorem disk0Io_delivers {d : Disk0} {len : ℕ} {readable : Bool} {pos : Int64} {buffer : Bytes}
    {r : VopRead} (hok : OpenFile.Ok ⟨readable, pos, .disk0 d⟩) (hlen : len ≤ ioBufSize)
    (h : disk0Io d buffer len pos.toInt = some r) :
    Delivered ⟨readable, pos, .disk0 d⟩ len
      ⟨r.ret, ⟨readable, pos + Int64.ofNat r.used, r.node⟩, r.buffer, r.used⟩ := by
  have hok' : d.dBlocks ≤ 2 ^ 29 ∧ 0 ≤ pos.toInt ∧ pos.toInt ≤ d.dBlocks * blkSize := hok
  obtain ⟨hmax, h0, hend⟩ := hok'
  -- an error or nothing to read
  have hnone : ∀ ret ≤ 0, Delivered ⟨readable, pos, .disk0 d⟩ len
      ⟨ret, ⟨readable, pos + Int64.ofNat 0, .disk0 d⟩, buffer, 0⟩ := by
    intro ret hret
    have hsame : pos + Int64.ofNat 0 = pos := by simp
    refine ⟨Nat.zero_le _, fun i hi => absurd hi (Nat.not_lt_zero i), rfl, rfl, ?_,
      fun hne => absurd rfl hne, fun hpos => absurd hret (Int.not_le.mpr hpos)⟩
    rw [hsame]
    exact hok
  have hinval : -eInval ≤ 0 := by decide
  obtain ⟨p, hp⟩ : ∃ p : ℕ, pos.toInt = p := ⟨pos.toInt.toNat, by omega⟩
  have hend' : p ≤ d.dBlocks * blkSize := by
    rw [hp] at hend
    exact_mod_cast hend
  have hblkno := disk0_blkno (p := p) (by unfold blkSize at *; omega)
  unfold disk0Io at h
  rw [hp, hblkno, ← Int.ofNat_tmod] at h
  dsimp only at h
  split at h
  · obtain rfl := Option.some.inj h
    exact hnone _ hinval
  · rename_i halign
    split at h
    · obtain rfl := Option.some.inj h
      exact hnone _ hinval
    · rename_i hin
      split at h
      · obtain rfl := Option.some.inj h
        exact hnone _ le_rfl
      · rename_i hblks
        obtain ⟨buffer', hrun, rfl⟩ := Option.map_eq_some_iff.mp h
        have hmod : p % blkSize = 0 ∧ len % blkSize = 0 := by omega
        obtain ⟨hp0, hlen0⟩ := hmod
        have hfour : len = 4096 := by
          rcases Nat.eq_zero_or_pos len with hzero | hpos
          · exact absurd (by rw [hzero]; rfl) hblks
          · unfold ioBufSize blkSize at *
            omega
        subst hfour
        have hlt : p / blkSize + 1 ≤ d.dBlocks := by
          have hone : uint32 (4096 / blkSize) = 1 := rfl
          have hsum : uint32 (p / blkSize + 1) = p / blkSize + 1 := by
            refine uint32_of_lt ?_
            unfold blkSize at *
            omega
          rw [hone, hsum] at hin
          omega
        have hnext : p + 4096 ≤ d.dBlocks * blkSize := by
          unfold blkSize at *
          omega
        have hpos : (pos + Int64.ofNat 4096).toInt = p + 4096 := by
          rw [toInt_add_ofNat h0 (by unfold blkSize at *; omega), hp]
          rfl
        have hbytes := Disk0.readLoop_bytes hrun le_rfl rfl (by unfold blkSize at *; omega)
        refine ⟨le_rfl, ?_, rfl, rfl, ?_, ?_, fun hbad => absurd hbad (lt_irrefl _)⟩
        · intro i hi
          have hbyte := hbytes i ((Nat.zero_add 4096).symm ▸ hi)
          rw [if_neg (Nat.not_lt_zero i)] at hbyte
          refine hbyte.trans (congrArg d.data ?_)
          rw [hp]
          unfold blkSize at *
          omega
        · change d.dBlocks ≤ 2 ^ 29 ∧ 0 ≤ (pos + Int64.ofNat 4096).toInt ∧
            (pos + Int64.ofNat 4096).toInt ≤ d.dBlocks * blkSize
          rw [hpos]
          exact ⟨hmax, by omega, by exact_mod_cast hnext⟩
        · intro _ i
          change d.data ((pos + Int64.ofNat 4096).toInt.toNat + i) =
            d.data (pos.toInt.toNat + (4096 + i))
          refine congrArg d.data ?_
          rw [hpos, hp]
          omega

theorem fileRead_delivers {f : OpenFile} {buffer : Bytes} {len : ℕ} {t : FileRead} (hok : f.Ok)
    (hread : f.readable = true) (hlen : len ≤ ioBufSize) (h : fileRead f buffer len = some t) :
    Delivered f len t := by
  obtain ⟨readable, pos, node⟩ := f
  unfold fileRead at h
  rw [if_neg (fun hno => absurd (hread.symm.trans hno) (by simp))] at h
  obtain ⟨r, hr, ht⟩ := Option.bind_eq_some_iff.mp h
  obtain rfl := Option.some.inj ht
  cases node with
  | file s sin => exact sfsRead_delivers hok hlen hr
  | stdin input => exact stdinIo_delivers (Option.some.inj hr)
  | disk0 d => exact disk0Io_delivers hok hlen hr

/-! The whole loop. -/

/-- The number of bytes that `file_read` hands over for a request, part by part; the process and
its memory play no role in it. -/
def OpenFile.delivers : ℕ → OpenFile → Bytes → ℕ → ℕ
  | 0, _, _, _ => 0
  | turns + 1, f, buffer, len =>
    if len = 0 then 0
    else
      match fileRead f buffer (min ioBufSize len) with
      | none => 0
      | some t =>
        if t.ret ≠ 0 ∨ t.alen = 0 then t.alen
        else t.alen + t.file.delivers turns t.buffer (len - t.alen)

omit [SfsDevice] in
theorem store_congr {mem : UInt64 → UInt8} {dst : UInt64} {src src' : Bytes} {n : ℕ}
    (h : ∀ i < n, src i = src' i) : store mem dst src n = store mem dst src' n := by
  funext a
  unfold store
  split
  · rename_i ha
    exact h _ ha
  · rfl

omit [SfsDevice] in
theorem store_zero (mem : UInt64 → UInt8) (dst : UInt64) (src : Bytes) :
    store mem dst src 0 = mem := by
  funext a
  exact if_neg (Nat.not_lt_zero _)

omit [SfsDevice] in
/-- Two stores in a row. -/
theorem store_store {mem : UInt64 → UInt8} {dst : UInt64} {src : Bytes} {m n : ℕ}
    (h : m + n ≤ 2 ^ 64) (hm : m < 2 ^ 64) :
    store (store mem dst src m) (dst + UInt64.ofNat m) (fun i => src (m + i)) n =
      store mem dst src (m + n) := by
  funext a
  have hx := (a - dst).toNat_lt
  have hshift : (a - (dst + UInt64.ofNat m)).toNat = ((a - dst).toNat + (2 ^ 64 - m)) % 2 ^ 64 := by
    have ha := a.toNat_lt
    have hd := dst.toNat_lt
    rw [UInt64.toNat_sub, UInt64.toNat_sub, UInt64.toNat_add, UInt64.toNat_ofNat_of_lt' hm]
    omega
  unfold store
  rw [hshift]
  by_cases hlt : (a - dst).toNat < m
  · rw [if_neg (by omega), if_pos hlt, if_pos (by omega)]
  · by_cases hin : (a - dst).toNat < m + n
    · rw [if_pos (by omega), if_pos hin]
      refine congrArg src ?_
      omega
    · rw [if_neg (by omega), if_neg hlt, if_neg hin]

/-- What a loop did that was to copy `d` bytes: `c` bytes went to the process, and the position
is `lost` bytes further than that. -/
structure Copies (st st' : ReadState) (ret : ℤ) (d c lost : ℕ) : Prop where
  copied : st'.copied = st.copied + c
  may : ∀ i < c, MayAccess st.mm true (st.base.toNat + i)
  mem : st'.mem = store st.mem st.base st.file.byteAt c
  pos : st'.file.pos = st.file.pos + Int64.ofNat (c + lost)
  whole : lost = 0 → c = d ∧ (c = 0 → ret ≤ 0)
  part : lost ≠ 0 → lost ≤ ioBufSize ∧
    ∃ i < d, ¬ MayAccess st.mm true (st.base.toNat + i)

omit [SfsDevice] in
/-- Nothing is copied, and nothing is lost. -/
theorem Copies.none {st st' : ReadState} {ret : ℤ} (hret : ret ≤ 0)
    (hcopied : st'.copied = st.copied) (hmem : st'.mem = st.mem)
    (hpos : st'.file.pos = st.file.pos) : Copies st st' ret 0 0 0 := by
  refine ⟨hcopied, fun i hi => absurd hi (Nat.not_lt_zero i), ?_, ?_, fun _ => ⟨rfl, fun _ => hret⟩,
    fun hne => absurd rfl hne⟩
  · rw [hmem, store_zero]
  · rw [hpos]
    simp

omit [SfsDevice] in
/-- A part that is copied whole, and what the rest of the loop does. -/
theorem Copies.cons {st st₁ st' : ReadState} {ret : ℤ} {alen d c lost : ℕ} (halen : alen ≠ 0)
    (hcopied : st₁.copied = st.copied + alen)
    (hmm : ∀ a, MayAccess st₁.mm true a ↔ MayAccess st.mm true a)
    (hmay : ∀ i < alen, MayAccess st.mm true (st.base.toNat + i))
    (hbase : st₁.base = st.base + UInt64.ofNat alen)
    (hmem : st₁.mem = store st.mem st.base st.file.byteAt alen)
    (hpos : st₁.file.pos = st.file.pos + Int64.ofNat alen)
    (hrest : ∀ i, st₁.file.byteAt i = st.file.byteAt (alen + i))
    (h : Copies st₁ st' ret d c lost) : Copies st st' ret (alen + d) (alen + c) lost := by
  have hbound : st.base.toNat + alen < 2 ^ 64 := by
    have hlast := hmay (alen - 1) (by omega)
    obtain ⟨hlt, -⟩ := hlast.lt hlast
    have hne : st.base.toNat + alen ≠ 2 ^ 64 := by
      intro heq
      cases hm : st.mm with
      | none =>
        rw [hm] at hlast
        have htop := hlast.2
        unfold kernTop kernBase kmemSize at htop
        omega
      | some mm =>
        rw [hm] at hlast
        have htop := hlast.2.1
        unfold userTop at htop
        omega
    omega
  have halen' : alen < 2 ^ 64 := by omega
  have hnat : st₁.base.toNat = st.base.toNat + alen := by
    rw [hbase, UInt64.toNat_add, UInt64.toNat_ofNat_of_lt' halen', Nat.mod_eq_of_lt hbound]
  refine ⟨?_, ?_, ?_, ?_, ?_, ?_⟩
  · rw [h.copied, hcopied, Nat.add_assoc]
  · intro i hi
    by_cases hlt : i < alen
    · exact hmay i hlt
    · have hbyte := (hmm _).mp (h.may (i - alen) (by omega))
      have heq : st₁.base.toNat + (i - alen) = st.base.toNat + i := by omega
      rwa [heq] at hbyte
  · have hc : alen + c ≤ 2 ^ 64 := by
      rcases Nat.eq_zero_or_pos c with hzero | hpos
      · omega
      · have hbyte := (hmm _).mp (h.may (c - 1) (by omega))
        obtain ⟨hlt, -⟩ := hbyte.lt hbyte
        omega
    have hsrc : st₁.file.byteAt = fun i => st.file.byteAt (alen + i) := funext hrest
    rw [h.mem, hmem, hbase, hsrc]
    exact store_store hc halen'
  · rw [h.pos, hpos, Nat.add_assoc, Int64.ofNat_add alen, Int64.add_assoc]
  · intro hzero
    obtain ⟨hwhole, -⟩ := h.whole hzero
    exact ⟨by omega, fun hbad => by omega⟩
  · intro hne
    obtain ⟨hsize, i, hi, hnot⟩ := h.part hne
    refine ⟨hsize, alen + i, by omega, ?_⟩
    intro hbyte
    refine hnot ((hmm _).mpr ?_)
    rwa [hnat, Nat.add_assoc]

omit [SfsDevice] in
/-- `copy_to_user` for a part whose bytes may all be written, and for another. -/
theorem copyOut_cases (st : ReadState) (ret : ℤ) {alen : ℕ} (h0 : alen ≠ 0)
    (hle : alen ≤ ioBufSize) :
    ((∀ i < alen, MayAccess st.mm true (st.base.toNat + i)) ∧
      ∃ mm, (∀ a, MayAccess mm true a ↔ MayAccess st.mm true a) ∧
        st.copyOut ret alen = (ret, ⟨mm, store st.mem st.base st.buffer alen, st.file, st.buffer,
          st.base + UInt64.ofNat alen, st.len - alen, st.copied + alen⟩)) ∨
    ((∃ i < alen, ¬ MayAccess st.mm true (st.base.toNat + i)) ∧
      ∃ mm ret', ret' ≠ 0 ∧ st.copyOut ret alen = (ret', { st with mem := st.mem, mm := mm })) := by
  have hnat : (UInt64.ofNat alen).toNat = alen := by
    refine UInt64.toNat_ofNat_of_lt' ?_
    change alen < 2 ^ 64
    unfold ioBufSize at hle
    omega
  have hiff := userMemCheck_iff_mayAccess st.mm st.base (UInt64.ofNat alen) true (by omega)
  have hkeep : ∀ a, MayAccess (userMemCheck st.mm st.base (UInt64.ofNat alen) true).2 true a ↔
      MayAccess st.mm true a := fun a => mayAccess_userMemCheck
  rw [hnat] at hiff
  unfold ReadState.copyOut
  rcases hcheck : userMemCheck st.mm st.base (UInt64.ofNat alen) true with ⟨ok, mm⟩
  rw [hcheck] at hiff hkeep
  cases ok with
  | true => exact Or.inl ⟨hiff.mp rfl, mm, hkeep, rfl⟩
  | false =>
    refine Or.inr ⟨?_, mm, if ret = 0 then -eInval else ret, ?_, rfl⟩
    · by_contra hall
      push Not at hall
      exact absurd (hiff.mpr hall) (by simp)
    · split
      · exact by decide
      · assumption

theorem readLoop_copies {turns : ℕ} {st st' : ReadState} {ret : ℤ} (hok : st.file.Ok)
    (hread : st.file.readable = true) (h : st.readLoop turns = some (ret, st')) :
    ∃ c lost, Copies st st' ret (st.file.delivers turns st.buffer st.len) c lost := by
  induction turns generalizing st with
  | zero =>
    obtain ⟨rfl, rfl⟩ := Prod.mk.inj (Option.some.inj h)
    exact ⟨0, 0, Copies.none le_rfl rfl rfl rfl⟩
  | succ turns ih =>
    unfold ReadState.readLoop at h
    unfold OpenFile.delivers
    by_cases hlen : st.len = 0
    · rw [if_pos hlen] at h ⊢
      obtain ⟨rfl, rfl⟩ := Prod.mk.inj (Option.some.inj h)
      exact ⟨0, 0, Copies.none le_rfl rfl rfl rfl⟩
    · rw [if_neg hlen] at h ⊢
      obtain ⟨t, ht, hrun⟩ := Option.bind_eq_some_iff.mp h
      have hd := fileRead_delivers hok hread (min_le_left _ _) ht
      have hle := hd.le
      have hbuf : t.alen ≤ ioBufSize := by omega
      simp only [ht]
      by_cases hzero : t.alen = 0
      · -- the end of the file, or an error in front of the first byte
        simp only [hzero, ne_eq, not_true_eq_false, if_false, or_true, if_true] at hrun ⊢
        obtain ⟨rfl, rfl⟩ := Prod.mk.inj (Option.some.inj hrun)
        refine ⟨0, 0, Copies.none ?_ rfl rfl ?_⟩
        · by_contra hpos
          have hcount := hd.count (by omega)
          omega
        · have hpos := hd.pos
          rw [hzero] at hpos
          rw [hpos]
          simp
      · have hne : t.alen ≠ 0 := hzero
        dsimp only at hrun
        rw [if_pos hne] at hrun
        have hd0 : ∀ i < t.alen,
            i < (if t.ret ≠ 0 ∨ t.alen = 0 then t.alen
              else t.alen + t.file.delivers turns t.buffer (st.len - t.alen)) := by
          intro i hi
          split
          · exact hi
          · omega
        rcases copyOut_cases { st with file := t.file, buffer := t.buffer } t.ret hzero hbuf with
          ⟨hmay, mm, hmm, hcopy⟩ | ⟨hnot, mm, ret', hret', hcopy⟩
        · rw [hcopy] at hrun
          have hmem : store st.mem st.base t.buffer t.alen =
              store st.mem st.base st.file.byteAt t.alen := store_congr hd.bytes
          by_cases hstop : t.ret ≠ 0 ∨ t.alen = 0
          · rw [if_pos hstop] at hrun ⊢
            obtain ⟨rfl, rfl⟩ := Prod.mk.inj (Option.some.inj hrun)
            exact ⟨t.alen, 0, rfl, hmay, hmem, hd.pos, fun _ => ⟨rfl, fun hbad => absurd hbad hzero⟩,
              fun hne => absurd rfl hne⟩
          · rw [if_neg hstop] at hrun ⊢
            obtain ⟨c, lost, hc⟩ := ih hd.ok (hd.readable.trans hread) hrun
            exact ⟨t.alen + c, lost, hc.cons hzero rfl hmm hmay rfl hmem hd.pos
              (hd.rest hzero)⟩
        · rw [hcopy] at hrun
          rw [if_pos (Or.inl hret')] at hrun
          obtain ⟨rfl, rfl⟩ := Prod.mk.inj (Option.some.inj hrun)
          obtain ⟨i, hi, hbad⟩ := hnot
          refine ⟨0, t.alen, rfl, fun j hj => absurd hj (Nat.not_lt_zero j), ?_, ?_,
            fun hno => absurd hno hzero, fun _ => ⟨hbuf, i, hd0 i hi, hbad⟩⟩
          · exact (store_zero _ _ _).symm
          · rw [Nat.zero_add]
            exact hd.pos

/-! What the call promises. -/

/-- The result, the memory of the process and the position agree: as many bytes are copied as the
call returns, they are the bytes at the old position, and the position moves by as many; an error
leaves the memory and the position alone. -/
structure Agrees (f : OpenFile) (mem : UInt64 → UInt8) (base : UInt64) (ret : ℤ)
    (st : ReadState) : Prop where
  success : 0 ≤ ret → st.copied = ret ∧ st.mem = store mem base f.byteAt st.copied ∧
    st.file.pos = f.pos + Int64.ofInt ret
  failure : ret < 0 → st.copied = 0 ∧ st.mem = mem ∧ st.file.pos = f.pos

variable {mm : Option AreaList} {mem : UInt64 → UInt8} {f : OpenFile} {base len : UInt64}
  {buffer : Option Bytes} {ret : ℤ} {st : ReadState}

omit [SfsDevice] in
/-- Nothing happened, and no byte is counted. -/
theorem Agrees.refl (hret : ret ≤ 0) (hcopied : st.copied = 0) (hmem : st.mem = mem)
    (hpos : st.file.pos = f.pos) : Agrees f mem base ret st := by
  refine ⟨?_, fun _ => ⟨hcopied, hmem, hpos⟩⟩
  intro h0
  obtain rfl : ret = 0 := by omega
  refine ⟨by rw [hcopied]; rfl, ?_, ?_⟩
  · rw [hcopied, store_zero, hmem]
  · rw [hpos]
    simp

omit [SfsDevice] in
theorem add_ofNat_ne {p : Int64} {c lost : ℕ} (h0 : lost ≠ 0) (hle : lost ≤ ioBufSize) :
    p + Int64.ofNat (c + lost) ≠ p + Int64.ofNat c := by
  intro heq
  rw [Int64.ofNat_add, ← Int64.add_assoc] at heq
  have hzero : Int64.ofNat lost = 0 := by
    have hsub := congrArg (fun x => x - (p + Int64.ofNat c)) heq
    simpa [Int64.add_comm (p + Int64.ofNat c), Int64.add_sub_cancel] using hsub
  have hint := congrArg Int64.toInt hzero
  unfold ioBufSize at hle
  rw [Int64.toInt_ofNat_of_lt (by omega)] at hint
  exact h0 (Int.ofNat_eq_zero.mp hint)

omit [SfsDevice] in
/-- The loop keeps the promise where it loses nothing. -/
theorem Copies.agrees_iff {buffer : Bytes} {d c lost : ℕ}
    (h : Copies ⟨mm, mem, f, buffer, base, len.toNat, 0⟩ st ret d c lost) :
    Agrees f mem base (if st.copied ≠ 0 then (Int32.ofNat st.copied).toInt else ret) st ↔
      ∀ i < d, MayAccess mm true (base.toNat + i) := by
  have hcopied : st.copied = c := h.copied.trans (Nat.zero_add c)
  have hpos : st.file.pos = f.pos + Int64.ofNat (c + lost) := h.pos
  have hsmall : c < 2 ^ 31 := by
    rcases Nat.eq_zero_or_pos c with hzero | hc
    · omega
    · obtain ⟨-, hlt⟩ := (h.may (c - 1) (by omega)).lt (h.may 0 hc)
      change base.toNat + (c - 1) + 1 < base.toNat + 0 + 2 ^ 31 at hlt
      omega
  rw [hcopied, Int32.toInt_ofNat_of_lt hsmall]
  by_cases hlost : lost = 0
  · obtain ⟨hc, hret⟩ := h.whole hlost
    subst hc
    refine iff_of_true ?_ h.may
    by_cases hzero : c = 0
    · rw [if_neg (not_not.mpr hzero)]
      refine Agrees.refl (hret hzero) (hcopied.trans hzero) ?_ ?_
      · rw [h.mem, hzero, store_zero]
      · rw [hpos, hlost, hzero]
        simp
    · rw [if_pos hzero]
      refine ⟨fun _ => ⟨by rw [hcopied], ?_, ?_⟩, fun hneg => absurd hneg (by omega)⟩
      · rw [hcopied]
        exact h.mem
      · rw [hpos, hlost, Nat.add_zero]
        rfl
  · obtain ⟨hle, i, hi, hnot⟩ := h.part hlost
    refine iff_of_false ?_ (fun hall => hnot (hall i hi))
    intro hagree
    have hmoved := add_ofNat_ne (p := f.pos) (c := c) hlost hle
    rw [← hpos] at hmoved
    by_cases hzero : c = 0
    · rw [if_neg (not_not.mpr hzero)] at hagree
      have hsame : f.pos + Int64.ofNat c = f.pos := by
        rw [hzero]
        simp
      rcases lt_or_ge ret 0 with hneg | h0
      · exact hmoved ((hagree.failure hneg).2.2.trans hsame.symm)
      · obtain ⟨hcount, -, hend⟩ := hagree.success h0
        obtain rfl : ret = 0 := by omega
        refine hmoved (hend.trans ?_)
        rw [hzero]
        rfl
    · rw [if_pos hzero] at hagree
      exact hmoved (hagree.success (by omega)).2.2

/-- The result, the buffer and the position agree exactly where the process may write every byte
that the file hands over. The position moves before the data is copied out, so what cannot be
copied is lost. -/
theorem sysfile_read_agrees_iff (hok : f.Ok) (hread : f.readable = true)
    (hrun : sysfileRead mm mem f buffer base len = some (ret, st)) :
    Agrees f mem base ret st ↔ ∀ b, buffer = some b →
      ∀ i < f.delivers len.toNat b len.toNat, MayAccess mm true (base.toNat + i) := by
  unfold sysfileRead at hrun
  dsimp only at hrun
  by_cases hlen : len = 0
  · rw [if_pos hlen] at hrun
    obtain ⟨rfl, rfl⟩ := Prod.mk.inj (Option.some.inj hrun)
    refine iff_of_true (Agrees.refl le_rfl rfl rfl rfl) ?_
    intro b _ i hi
    rw [hlen] at hi
    exact absurd hi (Nat.not_lt_zero i)
  · rw [if_neg hlen, if_neg (fun hno => absurd (hread.symm.trans hno) (by simp))] at hrun
    cases buffer with
    | none =>
      obtain ⟨rfl, rfl⟩ := Prod.mk.inj (Option.some.inj hrun)
      refine iff_of_true (Agrees.refl (by decide) rfl rfl rfl) ?_
      intro b hb
      exact absurd hb (by simp)
    | some b =>
      obtain ⟨⟨ret', st'⟩, hloop, heq⟩ := Option.map_eq_some_iff.mp hrun
      obtain ⟨rfl, rfl⟩ := Prod.mk.inj heq
      obtain ⟨c, lost, hc⟩ := readLoop_copies hok hread hloop
      rw [hc.agrees_iff]
      constructor
      · intro hall b' hb'
        obtain rfl := Option.some.inj hb'
        exact hall
      · intro hall
        exact hall b rfl

omit [SfsDevice] in
theorem sysfile_read_agrees_iff_stdin : letI := workingDevice
    ∃ st, sysfileRead none (fun _ => 0) ⟨true, 0, .stdin [7]⟩ (some (fun _ => 0))
        0xFFFFFFFFC0200000 1 = some (1, st) ∧
      Agrees ⟨true, 0, .stdin [7]⟩ (fun _ => 0) 0xFFFFFFFFC0200000 1 st := by
  let := workingDevice
  have hok : OpenFile.Ok ⟨true, 0, .stdin [7]⟩ := trivial
  obtain ⟨st, hrun⟩ : ∃ st, sysfileRead none (fun _ => 0) ⟨true, 0, .stdin [7]⟩
      (some (fun _ => 0)) 0xFFFFFFFFC0200000 1 = some (1, st) := ⟨_, rfl⟩
  refine ⟨st, hrun, (sysfile_read_agrees_iff hok rfl hrun).mpr ?_⟩
  intro b _ i hi
  obtain rfl : i = 0 := Nat.lt_one_iff.mp hi
  exact ⟨by decide, by decide⟩

omit [SfsDevice] in
/-- A byte from the console that cannot be copied out: the call returns one, and nothing is
copied. -/
theorem count_without_copy : letI := workingDevice
    ¬ ∀ mm mem (f : OpenFile) buffer base len ret st, f.Ok → f.readable = true →
      sysfileRead mm mem f buffer base len = some (ret, st) → Agrees f mem base ret st := by
  let := workingDevice
  intro hall
  obtain ⟨st, hrun, hcopied⟩ : ∃ st, sysfileRead
      (some ⟨[], none, List.Pairwise.nil, fun _ h => absurd h (by simp)⟩) (fun _ => 0)
      ⟨true, 0, .stdin [7]⟩ (some (fun _ => 0)) 0 1 = some (1, st) ∧ st.copied = 0 :=
    ⟨_, rfl, rfl⟩
  have hok : OpenFile.Ok ⟨true, 0, .stdin [7]⟩ := trivial
  have hcount := ((hall _ _ _ _ _ _ _ _ hok rfl hrun).success (by decide)).1
  rw [hcopied] at hcount
  exact absurd hcount (by decide)

/-! What a descriptor hands over. -/

/-- A regular file hands over what lies in front of its end. -/
theorem delivers_file (hw : ¬ Faulty) {s : Sfs} {sin : ℕ} {turns n : ℕ} {pos : Int64} {b : Bytes}
    (hok : OpenFile.Ok ⟨true, pos, .file s sin⟩) (h0 : 0 ≤ pos.toInt) (hn : n ≤ turns) :
    OpenFile.delivers turns ⟨true, pos, .file s sin⟩ b n =
      min n ((s.din sin).size - pos.toInt.toNat) := by
  obtain ⟨hi, hf, htype⟩ := hok
  have hmax := (hi.sound (fun hbad => hbad)).limit sin hf.ino
  rw [hf.blocks] at hmax
  induction turns generalizing pos b n with
  | zero =>
    obtain rfl : n = 0 := Nat.le_zero.mp hn
    exact (Nat.zero_min _).symm
  | succ turns ih =>
    unfold OpenFile.delivers
    by_cases hzero : n = 0
    · rw [if_pos hzero, hzero, Nat.zero_min]
    · rw [if_neg hzero]
      obtain ⟨r, hr, hsfs, hin, -, hfull⟩ :=
        sfsIoNolock_reads b hi hf htype pos.toInt (min ioBufSize n)
      have hstop : ¬ pos.toInt < maxFileSize → r.alen = 0 := by
        intro hge
        by_contra hne
        exact hge (hin hne).2
      -- the first part ends at the end of the file, or it is full
      obtain ⟨hle, halen, hret⟩ : r.alen ≤ min ioBufSize n ∧
          r.alen = min (min ioBufSize n) ((s.din sin).size - pos.toInt.toNat) ∧
          (r.alen ≠ 0 → sfsCode r.ret = 0) := by
        unfold blocksFor maxBlocks nDirect blkNEntry blkSize at hmax
        by_cases hlt : pos.toInt < maxFileSize
        · have hfit : pos.toInt + (min ioBufSize n : ℕ) < 2 ^ 63 := by
            unfold maxFileSize ioBufSize at *
            omega
          obtain ⟨-, hok, hall⟩ := hfull h0 hlt hfit
          have halen := hall (hok hw)
          refine ⟨by omega, halen, fun _ => ?_⟩
          rw [hok hw]
          rfl
        · have hend := hstop hlt
          unfold maxFileSize at hlt
          exact ⟨by omega, by omega, fun hne => absurd hend hne⟩
      have hread : fileRead ⟨true, pos, .file s sin⟩ b (min ioBufSize n) = some
          ⟨sfsCode r.ret, ⟨true, pos + Int64.ofNat r.alen, .file s sin⟩, r.buf, r.alen⟩ := by
        unfold fileRead vopRead sfsRead
        dsimp only
        rw [hr]
        simp only [Bool.true_eq_false, if_false, Option.bind_eq_bind, Option.bind_some, if_pos hle,
          hsfs]
      have hpart : 0 < ioBufSize := by decide
      simp only [hread]
      by_cases hnone : r.alen = 0
      · rw [if_pos (Or.inr hnone)]
        omega
      · rw [if_neg (not_or.mpr ⟨not_not.mpr (hret hnone), hnone⟩)]
        have hpos : (pos + Int64.ofNat r.alen).toInt = pos.toInt + r.alen := by
          have hlt := (hin hnone).2
          refine toInt_add_ofNat h0 ?_
          unfold maxFileSize ioBufSize at *
          omega
        rw [ih (by omega) (by omega), hpos]
        omega

/-- The console hands over one part. -/
theorem delivers_stdin {turns n : ℕ} {pos : Int64} {input : List UInt8} {b : Bytes} (hn : n ≠ 0) :
    OpenFile.delivers (turns + 1) ⟨true, pos, .stdin input⟩ b n =
      min (min ioBufSize n) input.length := by
  have hstop : ((min (min ioBufSize n) input.length : ℕ) : ℤ) ≠ 0 ∨
      min (min ioBufSize n) input.length = 0 := by omega
  unfold OpenFile.delivers
  rw [if_neg hn]
  exact if_pos hstop

end Ucore.Vfs
