import Ucore.Vfs.SharedFileCalls

/-!
Several descriptors on one regular file. No assertion fails, the number of blocks fits the size, and
a write puts its bytes at the position of its descriptor, as long as no seek runs out of free blocks
and no write starts behind the block after the last one of the file.
-/
namespace Ucore.Vfs

open Library Libs Call Fs Vm

/-- The bytes that the buffer of a process holds. -/
def UserBuffer.bytes (u : UserBuffer) : Bytes := fun i => u.mem (u.base + UInt64.ofNat i)

namespace SharedFile

/-- The volume with the file, which nobody has open. -/
def start (s : Sfs) (ino : ℕ) : SharedFile := ⟨s.loaded ino, ino, 0, false, 0, 0, []⟩

def FitsSize (st : SharedFile) : Prop := (st.sfs.din st.ino).blocks = blocksFor st.size

/-- The offsets of a call lie within the reach of the block map. -/
def InBounds (st : SharedFile) : SharedOp → Prop
  | .seek fd pos whence => ∀ d p, st.file fd = some d → seekPos d st.size pos whence = some p →
      p.toInt ≤ maxBytes
  | .write fd u => ∀ d, st.file fd = some d → d.pos.toInt + u.len.toNat ≤ maxBytes
  | _ => True

/-- A seek has room, and a write that has bytes to write starts in a block of the file or in the next
one. -/
def Supported (st : SharedFile) : SharedOp → Prop
  | .seek fd pos whence => ∀ d p, st.file fd = some d → seekPos d st.size pos whence = some p →
      st.sfs.HasRoom st.ino p.toInt
  | .write fd u => ∀ d, st.file fd = some d → d.writable = true → u.len ≠ 0 → u.kbuf ≠ none →
      (∀ i < min ioBufSize u.len.toNat, MayAccess u.mm false (u.base.toNat + i)) →
      d.pos.toInt.toNat / blkSize ≤ (st.sfs.din st.ino).blocks
  | _ => True

/-- The first `k` bytes of the buffer are in the file, at the position of the descriptor, which is
behind them then; the other bytes and descriptors are as before. -/
structure Wrote (st : SharedFile) (fd : ℕ) (d : Descriptor) (u : UserBuffer) (k : ℕ)
    (st' : SharedFile) : Prop where
  written : Written st.sfs st.ino d.pos.toInt.toNat u.bytes k st'.sfs
  moved : st'.file fd = some { d with pos := d.pos + Int64.ofNat k }
  others : ∀ n, n ≠ fd → st'.file n = st.file n

/-- No assertion fails, the blocks fit the size, and a write that counts `k` bytes wrote them. -/
def CallOk [SfsDevice] (st : SharedFile) (op : SharedOp) : Prop :=
  ∃ ret st', perform op st = some (ret, st') ∧ st'.FitsSize ∧
    ∀ fd u d (k : ℕ), op = .write fd u → st.file fd = some d → ret = .ok (k : ℤ) →
      Wrote st fd d u k st'

variable [SfsDevice] {st st' : SharedFile} {fd : ℕ}

/-- A seek without room leaves a number of blocks that does not fit the size. -/
theorem fileSeek_ends (hw : ¬ Faulty) {pos : Int64} {whence : ℤ} (h : Good st)
    (hmax : st.InBounds (.seek fd pos whence)) :
    Ends False (fileSeek fd pos whence) st
      (fun _ st' => (st.Supported (.seek fd pos whence) → Good st') ∧
        (¬ st.Supported (.seek fd pos whence) → ¬ st'.FitsSize))
      (fun _ st' => (st.Supported (.seek fd pos whence) → Good st') ∧
        (¬ st.Supported (.seek fd pos whence) → ¬ st'.FitsSize)) := by
  have hstays : st.Supported (.seek fd pos whence) →
      (st.Supported (.seek fd pos whence) → Good st) ∧
        (¬ st.Supported (.seek fd pos whence) → ¬ st.FitsSize) :=
    fun hyes => ⟨fun _ => h, fun hno => absurd hyes hno⟩
  refine Ends.bind (fd2file_ends (fun d hfile => Ends.bind (Ends.read ?_))
    (fun hnone => hstays ?_))
  · cases hpos : seekPos d st.size pos whence with
    | none =>
      refine Ends.fail (hstays ?_)
      intro d' p hfile' hpos'
      rw [hfile] at hfile'
      obtain rfl := Option.some.inj hfile'
      rw [hpos] at hpos'
      exact absurd hpos' (by simp)
    | some p =>
      have hiff : st.Supported (.seek fd pos whence) ↔ st.sfs.HasRoom st.ino p.toInt := by
        constructor
        · intro hall
          exact hall d p hfile hpos
        · intro hroom d' p' hfile' hpos'
          rw [hfile] at hfile'
          obtain rfl := Option.some.inj hfile'
          rw [hpos] at hpos'
          exact Option.some.inj hpos' ▸ hroom
      rw [hiff]
      have hle := hmax d p hfile hpos
      obtain ⟨ret, t, ht, hzero, hroom, hnoroom⟩ := sfsTryseek_leaves hw h.good hle
      have hloaded := (h.loaded_of_file hfile).2.2
      have hends : Ends False (sfsTryseek st.ino p.toInt) st.sfs
          (fun _ t' => t' = t ∧ 0 ≤ p.toInt) (fun _ t' => t' = t) := by
        unfold Ends
        rw [ht]
        cases ret with
        | error e => rfl
        | ok a => exact ⟨rfl, hzero rfl⟩
      refine Ends.bind (onFs_ends (hends.mono ?_ ?_))
      · rintro _ t' ⟨rfl, h0⟩
        refine Ends.bind (Ends.modify (Ends.pure ⟨fun hyes => ?_, hnoroom⟩))
        exact h.move hfile (hroom hyes) ⟨h0, hle⟩
      · rintro _ t' rfl
        refine ⟨fun hyes => ?_, hnoroom⟩
        have hsame := h.toInOrder.leaves hloaded (hroom hyes)
        exact ⟨hsame, h.live, h.refs, h.opens, h.pos⟩
  · intro d p hfile
    rw [hnone] at hfile
    exact absurd hfile (by simp)

/-! Writing. -/

omit [SfsDevice] in
/-- `copy_from_user` for a part whose bytes may all be read, and for another. -/
theorem copyIn_cases (ws : WriteState) {n : ℕ} (h0 : n ≠ 0) (hle : n ≤ ioBufSize) :
    ((∀ i < n, MayAccess ws.mm false (ws.base.toNat + i)) ∧
      ∃ mm, ws.copyIn n = (true, { ws with
        mm := mm
        buffer := patch ws.buffer (fun i => ws.mem (ws.base + UInt64.ofNat i)) 0 n })) ∨
    (¬ (∀ i < n, MayAccess ws.mm false (ws.base.toNat + i)) ∧
      ∃ mm, ws.copyIn n = (false, { ws with mm := mm })) := by
  have hnat : (UInt64.ofNat n).toNat = n := by
    refine UInt64.toNat_ofNat_of_lt' ?_
    change n < 2 ^ 64
    unfold ioBufSize at hle
    omega
  have hiff := userMemCheck_iff_mayAccess ws.mm ws.base (UInt64.ofNat n) false (by omega)
  rw [hnat] at hiff
  unfold WriteState.copyIn
  rcases hcheck : userMemCheck ws.mm ws.base (UInt64.ofNat n) false with ⟨ok, mm⟩
  rw [hcheck] at hiff
  cases ok with
  | true => exact Or.inl ⟨hiff.mp rfl, mm, rfl⟩
  | false => exact Or.inr ⟨fun hall => Bool.false_ne_true (hiff.mpr hall), mm, rfl⟩

/-- In the loop of `sysfile_write`: what is counted has been written. -/
structure Writing (s : Sfs) (ino : ℕ) (d : Descriptor) (u : UserBuffer) (ws : WriteState) :
    Prop where
  mem : ws.mem = u.mem
  base : ws.base = u.base + UInt64.ofNat ws.copied
  len : ws.copied + ws.len = u.len.toNat
  file : ws.file = { d with pos := d.pos + Int64.ofNat ws.copied }
  written : Written s ino d.pos.toInt.toNat u.bytes ws.copied ws.sfs
  stays : Stays s ino ws.sfs

omit [SfsDevice] in
theorem Writing.start {s : Sfs} {ino : ℕ} (d : Descriptor) (u : UserBuffer) (buffer : Bytes)
    (hg : GoodFile s ino) :
    Writing s ino d u ⟨u.mm, u.mem, s, d, buffer, u.base, u.len.toNat, 0⟩ :=
  ⟨rfl, by simp, Nat.zero_add _, by simp, Written.refl hg, Stays.refl hg.cached⟩

omit [SfsDevice] in
theorem Writing.pos {s : Sfs} {ino : ℕ} {d : Descriptor} {u : UserBuffer} {ws : WriteState}
    (h : Writing s ino d u ws) (h0 : 0 ≤ d.pos.toInt)
    (hfit : d.pos.toInt + u.len.toNat ≤ maxBytes) :
    ws.file.pos.toInt = (d.pos.toInt.toNat + ws.copied : ℕ) := by
  have hbytes : maxBytes = 4243456 := by decide
  have hsum := h.len
  rw [h.file]
  change (d.pos + Int64.ofNat ws.copied).toInt = _
  rw [toInt_add_ofNat h0 (by omega)]
  omega

/-- One part of a write that starts in a block of the file or in the next one. -/
theorem Writing.part (hw : ¬ Faulty) {s : Sfs} {ino n : ℕ} {d : Descriptor} {u : UserBuffer}
    {ws : WriteState} {buffer : Bytes} (h : Writing s ino d u ws) (hwritable : d.writable = true)
    (h0 : 0 ≤ d.pos.toInt) (hfit : d.pos.toInt + u.len.toNat ≤ maxBytes) (hn : n ≠ 0)
    (hle : n ≤ ws.len) (hbuffer : ∀ i < n, buffer i = u.bytes (ws.copied + i))
    (hreach : (d.pos.toInt.toNat + ws.copied) / blkSize ≤ (ws.sfs.din ino).blocks) :
    ∃ r, fileWrite ws.sfs ino ws.file buffer n = some r ∧ r.ret ≤ 0 ∧ r.alen ≤ n ∧
      r.file = { d with pos := d.pos + Int64.ofNat (ws.copied + r.alen) } ∧
      Written s ino d.pos.toInt.toNat u.bytes (ws.copied + r.alen) r.sfs ∧ Stays s ino r.sfs := by
  have hsum := h.len
  have hgood := h.written.good
  have hend : d.pos.toInt.toNat + ws.copied + n ≤ maxBytes := by omega
  have hreturns : sfsIoNolock ws.sfs ino buffer (d.pos.toInt.toNat + ws.copied : ℕ) n true ≠ none :=
    (sfsIoNolock_write_returns_iff hw hgood (Nat.pos_of_ne_zero hn) hend).mpr hreach
  obtain ⟨r, hr⟩ := Option.ne_none_iff_exists'.mp hreturns
  have halen := sfsIoNolock_write_le hgood hend hr
  have hwritten := (sfsIoNolock_written hw hgood hend hr).2
  have hstays := sfsIoNolock_stays hw hgood.cached hr
  have hcall : fileWrite ws.sfs ino ws.file buffer n = some ⟨sfsCode r.ret, r.sfs,
      { ws.file with pos := ws.file.pos + Int64.ofNat r.alen }, r.alen⟩ := by
    have hmay : ws.file.writable ≠ false := by
      rw [h.file, hwritable]
      exact Bool.noConfusion
    unfold fileWrite
    rw [if_neg hmay, h.pos h0 hfit, hr]
    exact if_pos halen
  refine ⟨_, hcall, sfsCode_nonpos _, halen, ?_, ?_, h.stays.trans hstays⟩
  · rw [h.file]
    change ({ d with pos := d.pos + Int64.ofNat ws.copied + Int64.ofNat r.alen } : Descriptor) = _
    rw [Int64.ofNat_add, Int64.add_assoc]
  · exact Written.append h.written hwritten (fun i (hi : i < r.alen) => hbuffer i (by omega))

/-- The loop writes on behind the bytes that it has written. -/
theorem writeLoop_writes (turns : ℕ) (hw : ¬ Faulty) {s : Sfs} {ino : ℕ} {d : Descriptor}
    {u : UserBuffer} {ws : WriteState} (h : Writing s ino d u ws) (hwritable : d.writable = true)
    (h0 : 0 ≤ d.pos.toInt) (hfit : d.pos.toInt + u.len.toNat ≤ maxBytes)
    (hreach : (∀ i < min ioBufSize ws.len, MayAccess ws.mm false (ws.base.toNat + i)) →
      (d.pos.toInt.toNat + ws.copied) / blkSize ≤ (ws.sfs.din ino).blocks) :
    ∃ ret ws', writeLoop ino turns ws = some (ret, ws') ∧ Writing s ino d u ws' ∧ ret ≤ 0 := by
  have hbytes : maxBytes = 4243456 := by decide
  have hpart : ioBufSize = 4096 := rfl
  induction turns generalizing ws with
  | zero => exact ⟨_, _, rfl, h, le_rfl⟩
  | succ turns ih =>
    unfold writeLoop
    by_cases hlen : ws.len = 0
    · rw [if_pos hlen]
      exact ⟨_, _, rfl, h, le_rfl⟩
    rw [if_neg hlen]
    have hsum := h.len
    have hpartial : min ioBufSize ws.len ≠ 0 := by omega
    rcases copyIn_cases ws hpartial (min_le_left ioBufSize ws.len) with
      ⟨hmay, mm, hcopy⟩ | ⟨-, mm, hcopy⟩
    · have hbuffer : ∀ i < min ioBufSize ws.len,
          patch ws.buffer (fun i => ws.mem (ws.base + UInt64.ofNat i)) 0 (min ioBufSize ws.len) i =
            u.bytes (ws.copied + i) := by
        intro i hi
        unfold patch UserBuffer.bytes
        rw [if_pos ⟨Nat.zero_le i, by omega⟩, Nat.sub_zero, h.mem, h.base, UInt64.ofNat_add]
        exact congrArg u.mem (UInt64.add_assoc _ _ _)
      obtain ⟨r, hr, hret, halen, hfile, hwritten, hstays⟩ :=
        h.part hw hwritable h0 hfit hpartial (min_le_right _ _) hbuffer (hreach hmay)
      rw [hcopy]
      simp only [hr, Option.bind_eq_bind, Option.bind_some]
      rw [if_neg (show ¬ ws.len < r.alen by omega)]
      have hnext : Writing s ino d u ⟨mm, ws.mem, r.sfs, r.file,
          patch ws.buffer (fun i => ws.mem (ws.base + UInt64.ofNat i)) 0 (min ioBufSize ws.len),
          ws.base + UInt64.ofNat r.alen, ws.len - r.alen, ws.copied + r.alen⟩ := by
        refine ⟨h.mem, ?_, ?_, hfile, hwritten, hstays⟩
        · change ws.base + UInt64.ofNat r.alen = u.base + UInt64.ofNat (ws.copied + r.alen)
          rw [h.base, UInt64.ofNat_add, UInt64.add_assoc]
        · change ws.copied + r.alen + (ws.len - r.alen) = u.len.toNat
          omega
      by_cases hstop : r.ret ≠ 0 ∨ r.alen = 0
      · rw [if_pos hstop]
        exact ⟨_, _, rfl, hnext, hret⟩
      · rw [if_neg hstop]
        -- the next part begins where the file ends, or in front of its end
        refine ih hnext (fun _ => hwritten.reach ?_)
        omega
    · rw [hcopy]
      exact ⟨_, _, rfl, ⟨h.mem, h.base, h.len, h.file, h.written, h.stays⟩, by decide⟩

/-- A first part that may be copied in, and that starts further behind the file, is a panic. -/
theorem writeLoop_gap (turns : ℕ) (hw : ¬ Faulty) {s : Sfs} {ino : ℕ} {d : Descriptor}
    {u : UserBuffer} {ws : WriteState} (h : Writing s ino d u ws) (hwritable : d.writable = true)
    (h0 : 0 ≤ d.pos.toInt) (hfit : d.pos.toInt + u.len.toNat ≤ maxBytes) (hturns : turns ≠ 0)
    (hlen : ws.len ≠ 0)
    (hmay : ∀ i < min ioBufSize ws.len, MayAccess ws.mm false (ws.base.toNat + i))
    (hgap : ¬ (d.pos.toInt.toNat + ws.copied) / blkSize ≤ (ws.sfs.din ino).blocks) :
    writeLoop ino turns ws = none := by
  have hpart : ioBufSize = 4096 := rfl
  have hsum := h.len
  obtain ⟨turns, rfl⟩ := Nat.exists_eq_succ_of_ne_zero hturns
  unfold writeLoop
  rw [if_neg hlen]
  have hpartial : min ioBufSize ws.len ≠ 0 := by omega
  rcases copyIn_cases ws hpartial (min_le_left ioBufSize ws.len) with
    ⟨-, mm, hcopy⟩ | ⟨hnot, -⟩
  · have hnone : sfsIoNolock ws.sfs ino (patch ws.buffer
        (fun i => ws.mem (ws.base + UInt64.ofNat i)) 0 (min ioBufSize ws.len))
        (d.pos.toInt.toNat + ws.copied : ℕ) (min ioBufSize ws.len) true = none := by
      by_contra hreturns
      exact hgap ((sfsIoNolock_write_returns_iff hw h.written.good (by omega) (by omega)).mp
        hreturns)
    have hcall : fileWrite ws.sfs ino ws.file (patch ws.buffer
        (fun i => ws.mem (ws.base + UInt64.ofNat i)) 0 (min ioBufSize ws.len))
        (min ioBufSize ws.len) = none := by
      have hallowed : ws.file.writable ≠ false := by
        rw [h.file, hwritable]
        exact Bool.noConfusion
      unfold fileWrite
      rw [if_neg hallowed, h.pos h0 hfit, hnone]
      rfl
    rw [hcopy]
    simp only [hcall, Option.bind_eq_bind, Option.bind_none]
  · exact absurd hmay hnot

/-- A write that has bytes to write panics if it starts too far behind the file. -/
theorem sysfileWrite_none {u : UserBuffer} (hw : ¬ Faulty) (h : Good st)
    (hfit : st.InBounds (.write fd u)) (hnot : ¬ st.Supported (.write fd u)) :
    sysfileWrite fd u st = none := by
  unfold Supported at hnot
  push Not at hnot
  obtain ⟨d, hfile, hwritable, hlen, hkbuf, hmay, hgap⟩ := hnot
  obtain ⟨buffer, hbuffer⟩ := Option.ne_none_iff_exists'.mp hkbuf
  have hlen' : u.len.toNat ≠ 0 := fun hzero => hlen (UInt64.toNat_inj.mp hzero)
  have h0 := (h.pos d (mem_of_file hfile)).1
  have hnone := writeLoop_gap u.len.toNat hw (Writing.start d u buffer h.good) hwritable h0
    (hfit d hfile) hlen' hlen' hmay (Nat.not_le.mpr hgap)
  have hallowed : d.writable ≠ false := by
    rw [hwritable]
    exact Bool.noConfusion
  unfold sysfileWrite
  rw [if_neg hlen, hfile]
  dsimp only
  rw [if_neg hallowed, hbuffer]
  dsimp only
  rw [hnone, Option.map_none]

omit [SfsDevice] in
/-- Nothing was written. -/
theorem Wrote.refl {d : Descriptor} {u : UserBuffer} (h : Good st) (hfile : st.file fd = some d) :
    Wrote st fd d u 0 st :=
  ⟨Written.refl h.good, by rw [hfile]; simp, fun _ _ => rfl⟩

omit [SfsDevice] in
/-- What the loop leaves is what the call leaves. -/
theorem Writing.wrote {d : Descriptor} {u : UserBuffer} {ws : WriteState}
    (h : Writing st.sfs st.ino d u ws) (hfile : st.file fd = some d) :
    Wrote st fd d u ws.copied { st.setFile fd (some ws.file) with sfs := ws.sfs } := by
  refine ⟨h.written, ?_, ?_⟩
  · change (st.setFile fd (some ws.file)).file fd = _
    rw [file_setFile hfile, if_pos rfl, h.file]
  · intro n hn
    change (st.setFile fd (some ws.file)).file n = _
    rw [file_setFile hfile, if_neg hn]

/-- A write that starts in a block of the file or in the next one. -/
theorem sysfileWrite_wrote {u : UserBuffer} (hw : ¬ Faulty) (h : Good st)
    (hfit : st.InBounds (.write fd u)) (hyes : st.Supported (.write fd u)) :
    ∃ ret st', sysfileWrite fd u st = some (ret, st') ∧ Good st' ∧
      ∀ (d : Descriptor) (k : ℕ), st.file fd = some d → ret = .ok (k : ℤ) →
        Wrote st fd d u k st' := by
  have hbytes : maxBytes = 4243456 := by decide
  have herror : ∀ e : VfsError, ∀ (d : Descriptor) (k : ℕ), st.file fd = some d →
      (.error e : Except VfsError ℤ) = .ok (k : ℤ) → Wrote st fd d u k st :=
    fun e d k _ hbad => absurd hbad (by simp)
  unfold sysfileWrite
  by_cases hlen : u.len = 0
  · rw [if_pos hlen]
    refine ⟨_, _, rfl, h, ?_⟩
    intro d k hfile hret
    obtain rfl : k = 0 := by
      have hk := Except.ok.inj hret
      omega
    exact Wrote.refl h hfile
  rw [if_neg hlen]
  cases hfile : st.file fd with
  | none => exact ⟨_, _, rfl, h, fun d k hbad => absurd hbad (by simp)⟩
  | some d =>
    dsimp only
    by_cases hwritable : d.writable = false
    · rw [if_pos hwritable]
      exact ⟨_, _, rfl, h, hfile ▸ herror _⟩
    rw [if_neg hwritable]
    cases hkbuf : u.kbuf with
    | none => exact ⟨_, _, rfl, h, hfile ▸ herror _⟩
    | some buffer =>
      dsimp only
      have hallowed := Bool.eq_true_of_not_eq_false hwritable
      have h0 := (h.pos d (mem_of_file hfile)).1
      have hend := hfit d hfile
      obtain ⟨ret, ws, hloop, hws, hret⟩ := writeLoop_writes u.len.toNat hw
        (Writing.start d u buffer h.good) hallowed h0 hend
        (fun hmay => hyes d hfile hallowed hlen (by rw [hkbuf]; simp) hmay)
      have hsum := hws.len
      have hpos : ws.file.pos.toInt = (d.pos.toInt.toNat + ws.copied : ℕ) := hws.pos h0 hend
      have hin : 0 ≤ ws.file.pos.toInt ∧ ws.file.pos.toInt ≤ maxBytes := by omega
      rw [hloop, Option.map_some]
      refine ⟨_, _, rfl, h.move hfile ⟨hws.written.good, hws.stays⟩ hin, ?_⟩
      intro d' k hd' hk
      obtain rfl := Option.some.inj hd'
      have hcount : ws.copied = k := by
        have hint := Except.ok.inj hk
        dsimp only at hint
        by_cases hzero : ws.copied = 0
        · rw [if_neg (not_not.mpr hzero)] at hint
          omega
        · rw [if_pos hzero, Int32.toInt_ofNat_of_lt (by omega)] at hint
          omega
      exact hcount ▸ hws.wrote hfile

/-! One call and a run. -/

omit [SfsDevice] in
theorem Good.fits (h : Good st) : st.FitsSize := h.good.fits.blocks

theorem perform_good {op : SharedOp} (hw : ¬ Faulty) (h : Good st) (hin : st.InBounds op)
    (hyes : st.Supported op) :
    ∃ ret st', perform op st = some (ret, st') ∧ Good st' ∧
      ∀ fd u d (k : ℕ), op = .write fd u → st.file fd = some d → ret = .ok (k : ℤ) →
        Wrote st fd d u k st' := by
  have hother : (∀ fd u, op ≠ .write fd u) → Ends False (perform op) st (fun _ st' => Good st')
      (fun _ st' => Good st') → ∃ ret st', perform op st = some (ret, st') ∧ Good st' ∧
        ∀ fd u d (k : ℕ), op = .write fd u → st.file fd = some d → ret = .ok (k : ℤ) →
          Wrote st fd d u k st' := by
    intro hop hends
    obtain ⟨⟨ret, st'⟩, hrun⟩ := hends.exists
    exact ⟨ret, st', hrun, (hends.weaken False.elim).state hrun,
      fun fd u _ _ hbad => absurd hbad (hop fd u)⟩
  cases op with
  | «open» early flags =>
    refine hother (fun _ _ => SharedOp.noConfusion) ?_
    cases early with
    | none => exact fileOpen_ends hw h
    | some e => exact Ends.fail h
  | dup early fd =>
    refine hother (fun _ _ => SharedOp.noConfusion) ?_
    cases early with
    | none => exact fileDup_ends h
    | some e => exact Ends.fail h
  | seek fd pos whence =>
    refine hother (fun _ _ => SharedOp.noConfusion) ?_
    exact (fileSeek_ends hw h hin).mono (fun _ _ hs => hs.1 hyes) (fun _ _ hs => hs.1 hyes)
  | read fd u =>
    obtain ⟨ret, st', hrun, hgood⟩ := sysfileRead_good h fd u
    exact ⟨ret, st', hrun, hgood, fun _ _ _ _ hbad => absurd hbad SharedOp.noConfusion⟩
  | write fd u =>
    obtain ⟨ret, st', hrun, hgood, hwrote⟩ := sysfileWrite_wrote hw h hin hyes
    refine ⟨ret, st', hrun, hgood, ?_⟩
    intro fd' u' d k heq
    obtain ⟨rfl, rfl⟩ := SharedOp.write.inj heq
    exact hwrote d k
  | close fd =>
    refine hother (fun _ _ => SharedOp.noConfusion) ?_
    exact fileClose_ends hw h

theorem perform_unsupported {op : SharedOp} (hw : ¬ Faulty) (h : Good st) (hin : st.InBounds op)
    (hno : ¬ st.Supported op) : ¬ st.CallOk op := by
  rintro ⟨ret, st', hrun, hfits, -⟩
  cases op with
  | seek fd pos whence =>
    have hends := (fileSeek_ends hw h hin).mono (fun _ _ hs => hs.2 hno) (fun _ _ hs => hs.2 hno)
    exact (hends.weaken False.elim).state hrun hfits
  | write fd u =>
    have hnone : perform (.write fd u) st = none := sysfileWrite_none hw h hin hno
    rw [hnone] at hrun
    exact absurd hrun (by simp)
  | «open» early flags => exact hno trivial
  | dup early fd => exact hno trivial
  | read fd u => exact hno trivial
  | close fd => exact hno trivial

omit [SfsDevice] in
theorem start_good {s : Sfs} {ino : ℕ} (hl : Loadable s ino) (hg : GoodFile (s.loaded ino) ino) :
    Good (start s ino) := by
  have hdin : (s.loaded ino).din ino = s.storedInode ino := by
    unfold Sfs.din Sfs.loaded
    simp only [Function.update_self]
  refine ⟨⟨hg, hl.nonzero, hl.range, hl.nlinks, ?_, Or.inr ?_⟩, ?_, le_rfl, rfl, ?_⟩
  · exact fun hbad => absurd hbad Bool.false_ne_true
  · change ((s.loaded ino).storedInode ino).Same ((s.loaded ino).din ino)
    rw [hdin]
    exact DiskInode.Same.refl _
  · exact fun hbad => absurd hbad (lt_irrefl 0)
  · exact fun d hbad => absurd hbad (List.not_mem_nil)

/-- Descriptors on one regular file of a volume in order, on a working device and with all offsets
within the reach of the block map: every call of a run ends with the blocks that fit the size, and
every write puts its bytes where its descriptor is, if and only if each seek has room and each write
that has bytes to write starts in a block of the file or in the next one. -/
theorem shared_file_iff {s : Sfs} {ino : ℕ} (hw : ¬ Faulty) (hl : Loadable s ino)
    (hg : GoodFile (s.loaded ino) ino) {ops : List SharedOp}
    (hin : RunMeets step InBounds (start s ino) ops) :
    RunMeets step CallOk (start s ino) ops ↔ RunMeets step Supported (start s ino) ops := by
  have hboth : RunMeets step (fun st op => st.InBounds op ∧ st.CallOk op) (start s ino) ops ↔
      RunMeets step (fun st op => st.InBounds op ∧ st.Supported op) (start s ino) ops := by
    have hcall : ∀ st op, Good st → (st.InBounds op ∧ st.CallOk op ↔
        st.InBounds op ∧ st.Supported op) := by
      intro st op h
      refine and_congr_right (fun hbounds => ⟨?_, ?_⟩)
      · intro hok
        by_contra hno
        exact perform_unsupported hw h hbounds hno hok
      · intro hyes
        obtain ⟨ret, st', hrun, hgood, hwrote⟩ := perform_good hw h hbounds hyes
        exact ⟨ret, st', hrun, hgood.fits, hwrote⟩
    refine RunMeets.iff hcall ?_ (start_good hl hg)
    intro st op st' h hok hstep
    obtain ⟨hbounds, hyes⟩ := (hcall st op h).mp hok
    obtain ⟨ret, st₁, hrun, hgood, -⟩ := perform_good hw h hbounds hyes
    unfold step at hstep
    rw [hrun, Option.map_some] at hstep
    exact Option.some.inj hstep ▸ hgood
  constructor
  · intro hok
    exact (hboth.mp (hin.and hok)).mono (fun _ _ h => h.2)
  · intro hyes
    exact (hboth.mpr (hin.and hyes)).mono (fun _ _ h => h.2)

/-- A process with one area, which gives five bytes from there. -/
def sampleBuffer : UserBuffer where
  mm := some ⟨[⟨0x800000, 0x801000, 3⟩], none, List.pairwise_singleton _ _,
    fun _ hv => absurd hv (Option.not_mem_none _)⟩
  mem := fun _ => 7
  base := 0x800000
  len := 5
  kbuf := some (fun _ => 0)

omit [SfsDevice] in
theorem spareImage_good : GoodFile (spareImage.loaded imageIno) imageIno := by
  rw [spareImage_loaded]
  exact ⟨spareImage_inv, ⟨spareImage_cached.ino, rfl, spareImage_cached.tail⟩, rfl⟩

omit [SfsDevice] in
/-- Five bytes go to the start of a file. -/
theorem shared_file_spare : letI := workingDevice
    RunMeets step CallOk (start spareImage imageIno) [.open none 2, .write 0 sampleBuffer] ∧
    (runOps step (start spareImage imageIno)
      [.open none 2, .write 0 sampleBuffer]).isSome = true := by
  let := workingDevice
  have hopen : ∀ st, step (start spareImage imageIno) (.open none 2) = some st →
      ∀ d, st.file 0 = some d → d.pos = 0 := by
    intro st hstep d hfile
    have hpos : (step (start spareImage imageIno) (.open none 2)).map
        (fun st => (st.file 0).map Descriptor.pos) = some (some 0) := by decide +kernel
    rw [hstep, Option.map_some, hfile, Option.map_some] at hpos
    exact Option.some.inj (Option.some.inj hpos)
  refine ⟨(shared_file_iff not_faulty_working spareImage_loadable spareImage_good ?_).mpr ?_,
    by decide +kernel⟩
  · refine ⟨trivial, fun st hst => ⟨fun d hfile => ?_, fun _ _ => trivial⟩⟩
    rw [hopen st hst d hfile]
    decide
  · refine ⟨trivial, fun st hst => ⟨fun d hfile _ _ _ _ => ?_, fun _ _ => trivial⟩⟩
    rw [hopen st hst d hfile]
    exact Nat.zero_le _

omit [SfsDevice] in
/-- One descriptor is at the end of twelve blocks when another one cuts them all off; the next write
of the first one is a panic. -/
theorem write_behind_truncation : letI := workingDevice
    ¬ ∀ s ino ops, Loadable s ino → GoodFile (s.loaded ino) ino →
      RunMeets step InBounds (start s ino) ops → RunMeets step CallOk (start s ino) ops := by
  let := workingDevice
  intro hclaim
  have hcut : (runOps step (start spareImage imageIno) [.open none 0x22, .open none 0x12]).map
      (fun st => (st.file 0).map Descriptor.pos) = some (some 49152) := by decide +kernel
  have hpanic : (runOps step (start spareImage imageIno)
      [.open none 0x22, .open none 0x12, .write 0 sampleBuffer]).isSome = false := by decide +kernel
  have hin : RunMeets step InBounds (start spareImage imageIno)
      [.open none 0x22, .open none 0x12, .write 0 sampleBuffer] := by
    refine ⟨trivial, fun st₁ h₁ => ⟨trivial, fun st₂ h₂ => ⟨fun d hfile => ?_, fun _ _ => trivial⟩⟩⟩
    have hrun : runOps step (start spareImage imageIno) [.open none 0x22, .open none 0x12] =
        some st₂ := by
      rw [runOps, h₁, Option.bind_some, runOps, h₂]
      rfl
    rw [hrun, Option.map_some, hfile, Option.map_some] at hcut
    rw [Option.some.inj (Option.some.inj hcut)]
    decide
  have hstep : ∀ st op, True → CallOk st op → ∃ st', step st op = some st' ∧ True := by
    rintro st op - ⟨ret, st', hcall, -⟩
    refine ⟨st', ?_, trivial⟩
    unfold step
    rw [hcall, Option.map_some]
  obtain ⟨t, hrun, -⟩ := runOps_total hstep trivial
    (hclaim spareImage imageIno _ spareImage_loadable spareImage_good hin)
  rw [hrun] at hpanic
  exact absurd hpanic (by simp)

end SharedFile
end Ucore.Vfs
