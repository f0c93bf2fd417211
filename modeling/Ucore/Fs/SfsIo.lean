import Ucore.Fs.SfsContent

/-!
How `sfs_io_nolock` ends. The loop is the same for reading and writing: it goes through the range
in parts that lie in one block each, and what one part keeps, the whole call keeps.
-/
namespace Ucore.Fs

open Library Libs Call

variable [SfsDevice] {q : Prop} {sin startpos endpos : ℕ} {write : Bool}
  {P : ℕ → Bytes → Sfs → Prop} {E : SfsError → SfsIo → Prop}

omit [SfsDevice] in
theorem onSfs_ends {α : Type} {x : SfsCall α} {io : SfsIo} {Q : α → SfsIo → Prop}
    (h : Ends q x io.sfs (fun a t => Q a { io with sfs := t })
      (fun e t => E e { io with sfs := t })) : Ends q (onSfs x) io Q E := by
  unfold Ends onSfs
  unfold Ends at h
  rcases hx : x io.sfs with _ | ⟨_ | a, t⟩
  · rw [hx] at h
    exact h
  · rw [hx] at h
    exact h
  · rw [hx] at h
    exact h

/-- The variables of the loop; `P` holds of the number of bytes that are done, the buffer and the
file system. -/
structure IoAt (startpos endpos : ℕ) (P : ℕ → Bytes → Sfs → Prop) (io : SfsIo) : Prop where
  data : io.data = io.alen
  offset : io.offset = startpos + io.alen
  le : io.offset ≤ endpos
  blkno : io.offset < endpos → io.blkno = io.offset / blkSize
  holds : P io.alen io.buf io.sfs

/-- The buffer and the file system after a part of `size` bytes, before the variables advance. -/
structure Moved (P : ℕ → Bytes → Sfs → Prop) (io : SfsIo) (size : ℕ) (io' : SfsIo) : Prop where
  same : io' = { io with buf := io'.buf, sfs := io'.sfs }
  holds : P (io.alen + size) io'.buf io'.sfs

/-- One part of the range is transferred: within a block, or a whole block. -/
structure Transfers (q : Prop) (sin startpos endpos : ℕ) (write : Bool) (P : ℕ → Bytes → Sfs → Prop)
    (E : SfsError → SfsIo → Prop) : Prop where
  part : ∀ io size, IoAt startpos endpos P io → 0 < size → io.offset % blkSize + size ≤ blkSize →
    io.offset + size ≤ endpos →
    Ends q (onSfs (sfsBmapLoadNolock sin io.blkno)) io (fun ino io₁ =>
      Ends q (sfsBufOp write size ino (io.offset % blkSize)) io₁ (fun _ => Moved P io size) E) E
  whole : ∀ io, IoAt startpos endpos P io → io.offset % blkSize = 0 → io.offset + blkSize ≤ endpos →
    Ends q (onSfs (sfsBmapLoadNolock sin io.blkno)) io (fun ino io₁ =>
      Ends q (sfsBlockOp write ino) io₁ (fun _ => Moved P io blkSize) E) E

omit [SfsDevice] in
theorem IoAt.advance {io io' : SfsIo} {size : ℕ} (h : IoAt startpos endpos P io)
    (hm : Moved P io size io') (hle : io.offset + size ≤ endpos)
    (hnext : io.offset + size < endpos → io.blkno + 1 = (io.offset + size) / blkSize) :
    IoAt startpos endpos P (advance io' size) := by
  have hdata : io'.data = io.data := by rw [hm.same]
  have hoffset : io'.offset = io.offset := by rw [hm.same]
  have halen : io'.alen = io.alen := by rw [hm.same]
  have hblkno : io'.blkno = io.blkno := by rw [hm.same]
  have h1 := h.data
  have h2 := h.offset
  refine ⟨?_, ?_, ?_, ?_, ?_⟩
  · simp only [Fs.advance]
    omega
  · simp only [Fs.advance]
    omega
  · simp only [Fs.advance]
    omega
  · simp only [Fs.advance, hoffset, hblkno]
    exact hnext
  · simp only [Fs.advance, halen]
    exact hm.holds

theorem ioHead_ends {io : SfsIo} (h : Transfers q sin startpos endpos write P E)
    (hio : IoAt startpos endpos P io) (hlt : io.offset < endpos) :
    Ends q (ioHead sin endpos (endpos / blkSize - io.blkno) write) io
      (fun _ io' => IoAt startpos endpos P io' ∧
        (io'.offset < endpos → io'.offset % blkSize = 0)) E := by
  have hblkno := hio.blkno hlt
  unfold ioHead
  refine Ends.bind (Ends.read ?_)
  dsimp only
  by_cases hoff : io.offset % blkSize = 0
  · rw [if_neg (not_not.mpr hoff)]
    exact Ends.pure ⟨hio, fun _ => hoff⟩
  · rw [if_pos hoff, hblkno]
    have hmod : io.offset % blkSize < blkSize := Nat.mod_lt _ (by decide)
    -- the part ends at the end of the block, or at the end of the range
    obtain ⟨size, hsize, hpos, hin, hle, hnext⟩ : ∃ size,
        (if endpos / blkSize - io.offset / blkSize ≠ 0 then blkSize - io.offset % blkSize
          else endpos - io.offset) = size ∧ 0 < size ∧ io.offset % blkSize + size ≤ blkSize ∧
        io.offset + size ≤ endpos ∧ (io.offset + size < endpos →
          io.offset / blkSize + 1 = (io.offset + size) / blkSize ∧
          (io.offset + size) % blkSize = 0) := by
      refine ⟨_, rfl, ?_⟩
      unfold blkSize at *
      split
      · refine ⟨by omega, by omega, by omega, fun _ => by omega⟩
      · refine ⟨by omega, by omega, by omega, fun hbad => by omega⟩
    rw [hsize, ← hblkno]
    refine Ends.bind ((h.part io size hio hpos hin hle).mono ?_ (fun _ _ he => he))
    intro ino io₁ hop
    refine Ends.bind (hop.mono ?_ (fun _ _ he => he))
    intro _ io₂ hm
    have hoffset : io₂.offset = io.offset := by rw [hm.same]
    refine Ends.modify ⟨hio.advance hm hle (fun hmore => hblkno ▸ (hnext hmore).1), ?_⟩
    intro hmore
    simp only [advance, hoffset] at hmore ⊢
    exact (hnext hmore).2

/-- The loop over the whole blocks; the number of turns is enough. -/
theorem ioBlocks_ends {io : SfsIo} {left : ℕ} (h : Transfers q sin startpos endpos write P E)
    (hio : IoAt startpos endpos P io) (halign : io.offset < endpos → io.offset % blkSize = 0)
    (hleft : endpos / blkSize ≤ left + io.offset / blkSize) :
    Ends q (ioBlocks sin endpos write left) io
      (fun _ io' => IoAt startpos endpos P io' ∧
        (io'.offset < endpos → io'.offset % blkSize = 0 ∧ endpos < io'.offset + blkSize)) E := by
  induction left generalizing io with
  | zero =>
    refine Ends.require (fun hstop => ⟨hio, fun hmore => ⟨halign hmore, by omega⟩⟩) (fun hbad => ?_)
    exfalso
    unfold blkSize at *
    omega
  | succ left ih =>
    unfold ioBlocks
    refine Ends.bind (Ends.read ?_)
    by_cases hmore : io.offset + blkSize ≤ endpos
    · rw [if_pos hmore]
      have hpos : 0 < blkSize := by decide
      have hlt : io.offset < endpos := by omega
      have hoff := halign hlt
      have hblkno := hio.blkno hlt
      refine Ends.bind ((h.whole io hio hoff hmore).mono ?_ (fun _ _ he => he))
      intro ino io₁ hop
      refine Ends.bind (hop.mono ?_ (fun _ _ he => he))
      intro _ io₂ hm
      have hoffset : io₂.offset = io.offset := by rw [hm.same]
      refine Ends.bind (Ends.modify (ih (hio.advance hm hmore ?_) ?_ ?_))
      · intro _
        rw [hblkno, Nat.add_div_right _ hpos]
      · intro _
        simp only [advance, hoffset, Nat.add_mod_right]
        exact hoff
      · simp only [advance, hoffset, Nat.add_div_right _ hpos]
        omega
    · rw [if_neg hmore]
      exact Ends.pure ⟨hio, fun hlt => ⟨halign hlt, by omega⟩⟩

theorem ioTail_ends {io : SfsIo} (h : Transfers q sin startpos endpos write P E)
    (hio : IoAt startpos endpos P io) (halign : io.offset < endpos →
      io.offset % blkSize = 0 ∧ endpos < io.offset + blkSize) :
    Ends q (ioTail sin endpos write) io
      (fun _ io' => io'.alen = endpos - startpos ∧ P (endpos - startpos) io'.buf io'.sfs) E := by
  have hoffset := hio.offset
  have hle := hio.le
  unfold ioTail
  refine Ends.bind (Ends.read ?_)
  by_cases hlt : io.offset < endpos
  · rw [if_pos hlt]
    obtain ⟨hoff, hend⟩ := halign hlt
    have hpart := h.part io (endpos - io.offset) hio (by omega) (by omega) (by omega)
    rw [hoff] at hpart
    refine Ends.bind (hpart.mono ?_ (fun _ _ he => he))
    intro ino io₁ hop
    refine Ends.bind (hop.mono ?_ (fun _ _ he => he))
    intro _ io₂ hm
    have halen : io₂.alen = io.alen := by rw [hm.same]
    have hdone : io.alen + (endpos - io.offset) = endpos - startpos := by omega
    have hholds := hm.holds
    rw [hdone] at hholds
    exact Ends.modify ⟨by simp only [halen, hdone], hholds⟩
  · rw [if_neg hlt]
    have hdone : io.alen = endpos - startpos := by omega
    have hholds := hio.holds
    rw [hdone] at hholds
    exact Ends.pure ⟨hdone, hholds⟩

/-- What each part keeps holds at the end, where the whole range is done. -/
theorem ioBody_ends {s : Sfs} {buf : Bytes} (h : Transfers q sin startpos endpos write P E)
    (hlt : startpos < endpos) (hP : P 0 buf s) :
    Ends q (ioBody sin endpos (endpos / blkSize - startpos / blkSize) write)
      ⟨s, buf, 0, startpos, 0, startpos / blkSize⟩
      (fun _ io' => io'.alen = endpos - startpos ∧ P (endpos - startpos) io'.buf io'.sfs) E := by
  have hio : IoAt startpos endpos P ⟨s, buf, 0, startpos, 0, startpos / blkSize⟩ :=
    ⟨rfl, rfl, hlt.le, fun _ => rfl, hP⟩
  unfold ioBody
  refine Ends.bind ((ioHead_ends h hio hlt).mono ?_ (fun _ _ he => he))
  intro _ io₁ h₁
  refine Ends.bind ((ioBlocks_ends h h₁.1 h₁.2
    ((Nat.le_succ _).trans (Nat.le_add_right _ _))).mono ?_ (fun _ _ he => he))
  intro _ io₂ h₂
  exact ioTail_ends h h₂.1 h₂.2

/-- On a working device it is the block map that decides: what it keeps when it gives the block of
a part, and what then stays when this block is written, the whole transfer keeps. -/
theorem transfers_of_load {R : ℕ → Sfs → Prop} (hw : ¬ Faulty)
    (hload : ∀ k s, R k s → startpos + k < endpos →
      Ends True (sfsBmapLoadNolock sin ((startpos + k) / blkSize)) s
        (fun b t => Mounted t ∧ ∀ size, 0 < size → (startpos + k) % blkSize + size ≤ blkSize →
          R (k + size) t ∧ ∀ blk, R (k + size) (t.putBlock b blk))
        (fun _ t => R k t)) :
    Transfers True sin startpos endpos write (fun k _ t => R k t)
      (fun _ io => R io.alen io.sfs) := by
  have hfound : ∀ io, IoAt startpos endpos (fun k _ t => R k t) io → io.offset < endpos →
      Ends True (onSfs (sfsBmapLoadNolock sin io.blkno)) io (fun b io₁ => Mounted io₁.sfs ∧
        (∀ size, 0 < size → io.offset % blkSize + size ≤ blkSize →
          R (io.alen + size) io₁.sfs ∧ ∀ blk, R (io.alen + size) (io₁.sfs.putBlock b blk)) ∧
        io₁ = { io with sfs := io₁.sfs }) (fun _ io₁ => R io₁.alen io₁.sfs) := by
    intro io hio hlt
    have hblkno := hio.blkno hlt
    rw [hio.offset] at hblkno hlt
    nth_rewrite 1 [hblkno]
    refine onSfs_ends ((hload io.alen io.sfs hio.holds hlt).mono ?_ (fun _ _ he => he))
    intro b t hb
    rw [hio.offset]
    exact ⟨hb.1, hb.2, rfl⟩
  have hgood : ∀ s w b, SfsDevice.refuses s w b = true → False :=
    fun s w b hr => hw ⟨s, w, b, hr⟩
  refine ⟨?_, ?_⟩
  · intro io size hio hpos hin hle
    refine (hfound io hio (by omega)).mono ?_ (fun _ _ he => he)
    intro b io₁ hgot
    obtain ⟨hm, hkeeps, hsame⟩ := hgot
    obtain ⟨hread, hwrite⟩ := hkeeps size hpos hin
    unfold sfsBufOp
    refine Ends.bind (Ends.read ?_)
    cases write with
    | true =>
      rw [if_pos rfl]
      refine onSfs_ends (sfsWbuf_ends hm ⟨Nat.mod_lt _ (by decide), hin⟩ (fun _ => trivial) ?_ ?_)
      · intro hr
        rcases hr with hr | hr
        · exact (hgood _ _ _ hr).elim
        · exact (hgood _ _ _ hr).elim
      · intro _ _
        rw [hsame]
        exact ⟨rfl, hwrite _⟩
    | false =>
      rw [if_neg Bool.false_ne_true]
      refine Ends.bind (onSfs_ends (sfsRbuf_ends hm ⟨Nat.mod_lt _ (by decide), hin⟩
        (fun _ => trivial) (fun hr => (hgood _ _ _ hr).elim) ?_))
      intro _ _ _
      rw [hsame]
      exact Ends.modify ⟨rfl, hread⟩
  · intro io hio hoff hle
    have hpos : 0 < blkSize := by decide
    refine (hfound io hio (by omega)).mono ?_ (fun _ _ he => he)
    intro b io₁ hgot
    obtain ⟨hm, hkeeps, hsame⟩ := hgot
    obtain ⟨hread, hwrite⟩ := hkeeps blkSize hpos (by omega)
    unfold sfsBlockOp
    refine Ends.bind (Ends.read ?_)
    cases write with
    | true =>
      rw [if_pos rfl]
      refine Ends.bind (onSfs_ends (sfsWblock_ends hm (fun _ => trivial)
        (fun hr => (hgood _ _ _ hr).elim) ?_))
      intro bytes _ _
      rw [hsame]
      exact Ends.modify ⟨rfl, hwrite _⟩
    | false =>
      rw [if_neg Bool.false_ne_true]
      refine Ends.bind (onSfs_ends (sfsRblock_ends hm (fun _ => trivial)
        (fun hr => (hgood _ _ _ hr).elim) ?_))
      intro _ _ _ _
      rw [hsame]
      exact Ends.modify ⟨rfl, hread⟩

/-- Past its checks `sfs_io_nolock` is its loop over a range that is not empty; reading stops at
the end of the file. -/
theorem sfsIoNolock_keeps {R : ℕ → Sfs → Prop} {s : Sfs} {buf : Bytes} {offset : ℤ} {len : ℕ}
    {r : IoResult} (hstart : R 0 s)
    (hparts : ∀ endpos, offset.toNat < endpos → (write = false → endpos ≤ (s.din sin).size) →
      Transfers True sin offset.toNat endpos write (fun k _ t => R k t)
        (fun _ io => R io.alen io.sfs))
    (hr : sfsIoNolock s sin buf offset len write = some r) :
    ∃ t, R r.alen t ∧ r.sfs = growSize t sin offset.toNat r.alen write := by
  have hsame : s = growSize s sin offset.toNat 0 write := (if_neg (fun hbad => hbad.2.1 rfl)).symm
  unfold sfsIoNolock at hr
  dsimp only at hr
  split at hr
  · exact absurd hr.symm (Option.some_ne_none r)
  split at hr
  · obtain rfl := Option.some.inj hr
    exact ⟨s, hstart, hsame⟩
  split at hr
  · obtain rfl := Option.some.inj hr
    exact ⟨s, hstart, hsame⟩
  split at hr
  · obtain rfl := Option.some.inj hr
    exact ⟨s, hstart, hsame⟩
  rename_i hcheck heq hbeyond
  obtain ⟨stop, hstop⟩ : ∃ stop, (if toOff (offset + len) > maxFileSize then maxFileSize
      else (toOff (offset + len)).toNat) = stop := ⟨_, rfl⟩
  have hfirst : offset.toNat < stop := by
    rw [← hstop]
    split
    · omega
    · omega
  rw [hstop] at hr
  obtain ⟨endpos, hend⟩ : ∃ endpos, (if write = false ∧ stop > (s.din sin).size then
      (s.din sin).size else stop) = endpos := ⟨_, rfl⟩
  have hlt : offset.toNat < endpos := by
    rw [← hend]
    split
    · rename_i hclip
      exact Nat.lt_of_not_le (fun hge => hbeyond ⟨hclip.1, hge⟩)
    · exact hfirst
  have hread : write = false → endpos ≤ (s.din sin).size := by
    intro hwrite
    rw [← hend]
    split
    · exact le_rfl
    · rename_i hclip
      exact Nat.le_of_not_lt (fun hgt => hclip ⟨hwrite, hgt⟩)
  rw [hend] at hr
  obtain ⟨⟨ret, io⟩, hrun, rfl⟩ := Option.map_eq_some_iff.mp hr
  have hends := @ioBody_ends _ _ _ _ _ _ _ _ s buf (hparts endpos hlt hread) hlt hstart
  cases ret with
  | error e => exact ⟨io.sfs, hends.of_error hrun, rfl⟩
  | ok a =>
    obtain ⟨halen, hall⟩ := hends.of_ok hrun
    rw [← halen] at hall
    exact ⟨io.sfs, hall, rfl⟩

/-! Reading. -/

/-- The state and the buffer while bytes are read. -/
structure Reads (s : Sfs) (sin startpos : ℕ) (buf : Bytes) (k : ℕ) (buf' : Bytes) (t : Sfs) :
    Prop where
  sfs : t = s
  bytes : ∀ j < k, buf' j = s.content sin (startpos + j)
  rest : ∀ j, k ≤ j → buf' j = buf j

variable {s : Sfs} {buf : Bytes}

omit [SfsDevice] in
/-- The next bytes come from one block. -/
theorem Reads.patch {t : Sfs} {buf' bytes : Bytes} {k size : ℕ} (h : Reads s sin startpos buf k buf' t)
    (hblk : (startpos + k) / blkSize < (s.din sin).blocks)
    (hin : (startpos + k) % blkSize + size ≤ blkSize)
    (hbytes : ∀ i < size, bytes i =
      s.disk (s.blockOf sin ((startpos + k) / blkSize)) ((startpos + k) % blkSize + i)) :
    Reads s sin startpos buf (k + size) (patch buf' bytes k size) t := by
  refine ⟨h.sfs, ?_, ?_⟩
  · intro j hj
    unfold Fs.patch
    by_cases hjk : j < k
    · rw [if_neg (by omega)]
      exact h.bytes j hjk
    · rw [if_pos (by omega), hbytes _ (by omega)]
      have hdiv : (startpos + j) / blkSize = (startpos + k) / blkSize := by
        unfold blkSize at *
        omega
      have hmod : (startpos + j) % blkSize = (startpos + k) % blkSize + (j - k) := by
        unfold blkSize at *
        omega
      unfold Sfs.content
      rw [hdiv, if_pos hblk, hmod]
  · intro j hj
    unfold Fs.patch
    rw [if_neg (by omega)]
    exact h.rest j (by omega)

theorem reads_transfers (hi : Inv False s) (hsin : sin ∈ s.inos)
    (hE : Faulty → ∀ e io, IoAt startpos endpos (Reads s sin startpos buf) io → E e io)
    (hend : endpos ≤ (s.din sin).blocks * blkSize) :
    Transfers False sin startpos endpos false (Reads s sin startpos buf) E := by
  have hm := hi.accounts.mounted
  have hload : ∀ io, IoAt startpos endpos (Reads s sin startpos buf) io → io.offset < endpos →
      io.sfs = s ∧ io.blkno = (startpos + io.alen) / blkSize ∧
      (startpos + io.alen) / blkSize < (s.din sin).blocks ∧
      (Faulty → ∀ e, E e { io with sfs := s }) ∧
      Ends False (onSfs (sfsBmapLoadNolock sin io.blkno)) io (fun ino io₁ =>
        ino = s.blockOf sin ((startpos + io.alen) / blkSize) ∧ ino ≠ 0 ∧ ino < s.superBlocks ∧
          io = io₁) E := by
    intro io hio hlt
    have hblkno := hio.blkno hlt
    rw [hio.offset] at hblkno
    have hblk : (startpos + io.alen) / blkSize < (s.din sin).blocks := by
      have hoffset := hio.offset
      unfold blkSize at *
      omega
    have hsfs := hio.holds.sfs
    have hfail : Faulty → ∀ e, E e { io with sfs := s } := by
      intro hbad e
      rw [← hsfs]
      exact hE hbad e io hio
    refine ⟨hsfs, hblkno, hblk, hfail, ?_⟩
    rw [hblkno]
    refine onSfs_ends ?_
    rw [hsfs]
    refine sfsBmapLoadNolock_get_ends hi hsin hblk (fun e hbad => hfail hbad e) ?_
    intro h0 hlt
    refine ⟨rfl, h0, hlt, ?_⟩
    rw [← hsfs]
  have hhold : ∀ io, IoAt startpos endpos (Reads s sin startpos buf) io →
      Reads s sin startpos buf io.alen io.buf s := by
    intro io hio
    have hreads := hio.holds
    rwa [hreads.sfs] at hreads
  refine ⟨?_, ?_⟩
  · intro io size hio hpos hin hle
    obtain ⟨hsfs, -, hblk, hfail, hends⟩ := hload io hio (by omega)
    refine hends.mono ?_ (fun _ _ he => he)
    intro ino io₁ hgot
    obtain ⟨hino, h0, hsuper, hsame⟩ := hgot
    subst hsame
    rw [hio.offset] at hin ⊢
    unfold sfsBufOp
    refine Ends.bind (Ends.read ?_)
    rw [if_neg Bool.false_ne_true]
    refine Ends.bind (onSfs_ends ?_)
    rw [hsfs]
    refine sfsRbuf_ends hm ⟨Nat.mod_lt _ (by decide), hin⟩ (fun hbad => hbad ⟨h0, hsuper⟩)
      (fun hr => hfail ⟨_, _, _, hr⟩ _) ?_
    intro _ _ _
    refine Ends.modify ⟨rfl, ?_⟩
    have hbytes : ∀ i < size, s.disk ino ((startpos + io.alen) % blkSize + i) =
        s.disk (s.blockOf sin ((startpos + io.alen) / blkSize)) ((startpos + io.alen) % blkSize + i) := by
      intro i _
      rw [hino]
    rw [hio.data]
    exact (hhold io hio).patch hblk hin hbytes
  · intro io hio hoff hle
    have hpos : 0 < blkSize := by decide
    obtain ⟨hsfs, -, hblk, hfail, hends⟩ := hload io hio (by omega)
    refine hends.mono ?_ (fun _ _ he => he)
    intro ino io₁ hgot
    obtain ⟨hino, h0, hsuper, hsame⟩ := hgot
    subst hsame
    rw [hio.offset] at hoff
    unfold sfsBlockOp
    refine Ends.bind (Ends.read ?_)
    rw [if_neg Bool.false_ne_true]
    refine Ends.bind (onSfs_ends ?_)
    rw [hsfs]
    refine sfsRblock_ends hm (fun hbad => hbad ⟨h0, hsuper⟩)
      (fun hr => hfail ⟨_, _, _, hr⟩ _) ?_
    intro bytes hbytes _ _
    refine Ends.modify ⟨rfl, ?_⟩
    rw [hio.data, if_neg Bool.false_ne_true]
    refine (hhold io hio).patch hblk (by omega) ?_
    intro i hlt
    rw [hbytes i hlt, hino, hoff, Nat.zero_add]

omit [SfsDevice] in
theorem toOff_of_lt {v : ℤ} (h0 : 0 ≤ v) (h : v < 2 ^ 63) : toOff v = v := by
  unfold toOff
  rw [Int.bmod_eq_of_le (by omega) (by omega)]

omit [SfsDevice] in
theorem Reads.refl (s : Sfs) (sin startpos : ℕ) (buf : Bytes) : Reads s sin startpos buf 0 buf s :=
  ⟨rfl, fun j hj => absurd hj (Nat.not_lt_zero j), fun _ _ => rfl⟩

omit [SfsDevice] in
/-- Where reading stops: at the end of the range or of the file. -/
theorem readEnd {offset : ℤ} {len size : ℕ} (hmax : size ≤ maxFileSize)
    (hbad : ¬ (offset < 0 ∨ offset ≥ maxFileSize ∨ offset > toOff (offset + len)))
    (heq : offset ≠ toOff (offset + len)) (hbeyond : ¬ offset.toNat ≥ size) :
    ∃ endpos, (if false = false ∧ (if toOff (offset + len) > maxFileSize then maxFileSize
        else (toOff (offset + len)).toNat) > size then size
      else if toOff (offset + len) > maxFileSize then maxFileSize
        else (toOff (offset + len)).toNat) = endpos ∧
      offset.toNat < endpos ∧ endpos ≤ size ∧ (0 ≤ offset → offset + len < 2 ^ 63 →
        endpos - offset.toNat = min len (size - offset.toNat)) := by
  obtain ⟨e, he, hval⟩ : ∃ e, (if toOff (offset + len) > maxFileSize then maxFileSize
      else (toOff (offset + len)).toNat) = e ∧ (e : ℤ) = min (maxFileSize : ℤ) (toOff (offset + len)) := by
    refine ⟨_, rfl, ?_⟩
    split
    · omega
    · omega
  rw [he]
  have hwhole : 0 ≤ offset → offset + len < 2 ^ 63 → toOff (offset + len) = offset + len :=
    fun h0 hfit => toOff_of_lt (by omega) hfit
  by_cases hs : e > size
  · rw [if_pos ⟨rfl, hs⟩]
    refine ⟨_, rfl, by omega, le_rfl, fun h0 hfit => ?_⟩
    have h := hwhole h0 hfit
    omega
  · rw [if_neg (fun h => hs h.2)]
    refine ⟨_, rfl, by omega, by omega, fun h0 hfit => ?_⟩
    have h := hwhole h0 hfit
    omega

omit [SfsDevice] in
theorem growSize_read (s : Sfs) (sin startpos alen : ℕ) :
    growSize s sin startpos alen false = s := if_neg (fun hbad => Bool.false_ne_true hbad.1)

variable (buf) in
/-- Reading changes nothing in the file system, and what is read of the file is right, also where
it ends in an error. -/
theorem sfsIoNolock_reads (hi : Inv False s) (hf : Fits s sin) (htype : (s.din sin).type ≠ .dir)
    (offset : ℤ) (len : ℕ) :
    ∃ r, sfsIoNolock s sin buf offset len false = some r ∧ r.sfs = s ∧
      (r.alen ≠ 0 → 0 ≤ offset ∧ offset < maxFileSize) ∧
      (∀ j < r.alen, r.buf j = s.content sin (offset.toNat + j)) ∧
      (0 ≤ offset → offset < maxFileSize → offset + len < 2 ^ 63 →
        r.alen ≤ min len ((s.din sin).size - offset.toNat) ∧
        (¬ Faulty → r.ret = .ok ⟨⟩) ∧
        (r.ret = .ok ⟨⟩ → r.alen = min len ((s.din sin).size - offset.toNat))) := by
  have hsize : (s.din sin).size ≤ (s.din sin).blocks * blkSize := by
    rw [hf.blocks]
    unfold blocksFor blkSize
    omega
  have hmax : (s.din sin).size ≤ maxFileSize := by
    have hlimit := (hi.sound (fun hbad => hbad)).limit sin hf.ino
    unfold maxFileSize maxBlocks nDirect blkNEntry blkSize at *
    omega
  have hnone : ∀ j < 0, buf j = s.content sin (offset.toNat + j) :=
    fun j hj => absurd hj (Nat.not_lt_zero j)
  unfold sfsIoNolock
  rw [if_neg htype]
  dsimp only
  by_cases hbad : offset < 0 ∨ offset ≥ maxFileSize ∨ offset > toOff (offset + len)
  · rw [if_pos hbad]
    refine ⟨_, rfl, rfl, fun hne => absurd rfl hne, hnone, ?_⟩
    intro h0 hlt hfit
    rw [toOff_of_lt (by omega) hfit] at hbad
    omega
  · rw [if_neg hbad]
    by_cases heq : offset = toOff (offset + len)
    · rw [if_pos heq]
      refine ⟨_, rfl, rfl, fun hne => absurd rfl hne, hnone, ?_⟩
      intro h0 hlt hfit
      rw [toOff_of_lt (by omega) hfit] at heq
      have hzero : 0 = min len ((s.din sin).size - offset.toNat) := by omega
      exact ⟨hzero.le, fun _ => rfl, fun _ => hzero⟩
    · rw [if_neg heq]
      by_cases hbeyond : offset.toNat ≥ (s.din sin).size
      · rw [if_pos ⟨rfl, hbeyond⟩]
        refine ⟨_, rfl, rfl, fun hne => absurd rfl hne, hnone, ?_⟩
        intro h0 hlt hfit
        have hzero : 0 = min len ((s.din sin).size - offset.toNat) := by omega
        exact ⟨hzero.le, fun _ => rfl, fun _ => hzero⟩
      · rw [if_neg (fun h => hbeyond h.2)]
        obtain ⟨endpos, hend, hlt, hle, hfull⟩ := readEnd hmax hbad heq hbeyond
        rw [hend]
        have hparts : Transfers False sin offset.toNat endpos false
            (Reads s sin offset.toNat buf) (fun _ io => Faulty ∧
              IoAt offset.toNat endpos (Reads s sin offset.toNat buf) io) :=
          reads_transfers hi hf.ino (fun hbad _ _ hio => ⟨hbad, hio⟩) (hle.trans hsize)
        have hends := ioBody_ends hparts hlt (Reads.refl s sin _ buf)
        unfold Ends at hends
        rcases hrun : ioBody sin endpos (endpos / blkSize - offset.toNat / blkSize) false
          ⟨s, buf, 0, offset.toNat, 0, offset.toNat / blkSize⟩ with _ | ⟨e | a, io⟩
        · rw [hrun] at hends
          exact hends.elim
        · rw [hrun] at hends
          obtain ⟨hfault, hio⟩ := hends
          refine ⟨_, rfl, ?_, fun _ => ?_, hio.holds.bytes, ?_⟩
          · exact (growSize_read io.sfs sin offset.toNat io.alen).trans hio.holds.sfs
          · omega
          · intro h0 hlt hfit
            have hbelow : io.alen ≤ endpos - offset.toNat := by
              have h1 := hio.offset
              have h2 := hio.le
              omega
            rw [hfull h0 hfit] at hbelow
            exact ⟨hbelow, fun hno => absurd hfault hno, fun hok => absurd hok (by simp)⟩
        · rw [hrun] at hends
          obtain ⟨halen, hreads⟩ := hends
          refine ⟨_, rfl, ?_, fun _ => ?_, ?_, ?_⟩
          · exact (growSize_read io.sfs sin offset.toNat io.alen).trans hreads.sfs
          · omega
          · intro j hj
            exact hreads.bytes j (halen ▸ hj)
          · intro h0 hlt hfit
            have hall : io.alen = min len ((s.din sin).size - offset.toNat) := by
              rw [halen]
              exact hfull h0 hfit
            exact ⟨hall.le, fun _ => rfl, fun _ => hall⟩

/-- On a device without faults, what passes the checks transfers the bytes of the range that lie
in the file. -/
theorem sfsIoNolock_read (hi : Inv False s) (hf : Fits s sin) (hw : ¬ Faulty)
    (htype : (s.din sin).type ≠ .dir) (offset : ℤ) (len : ℕ) :
    ∃ r, sfsIoNolock s sin buf offset len false = some r ∧ r.sfs = s ∧
      (0 ≤ offset → offset < maxFileSize → offset + len < 2 ^ 63 →
        r.ret = .ok ⟨⟩ ∧ r.alen = min len ((s.din sin).size - offset.toNat) ∧
        ∀ j < r.alen, r.buf j = s.content sin (offset.toNat + j)) := by
  obtain ⟨r, hr, hsfs, -, hbytes, hfull⟩ := sfsIoNolock_reads buf hi hf htype offset len
  refine ⟨r, hr, hsfs, ?_⟩
  intro h0 hlt hfit
  obtain ⟨-, hok, halen⟩ := hfull h0 hlt hfit
  exact ⟨hok hw, halen (hok hw), hbytes⟩

/-- On any device, reading changes nothing in the file system. -/
theorem sfsIoNolock_read_keeps (hi : Inv False s) (hf : Fits s sin) (offset : ℤ) (len : ℕ)
    {r : IoResult} (hr : sfsIoNolock s sin buf offset len false = some r) : r.sfs = s := by
  by_cases htype : (s.din sin).type = .dir
  · unfold sfsIoNolock at hr
    rw [if_pos htype] at hr
    exact absurd hr.symm (Option.some_ne_none r)
  · obtain ⟨r', hr', hsfs, -⟩ := sfsIoNolock_reads buf hi hf htype offset len
    obtain rfl : r = r' := Option.some.inj (hr.symm.trans hr')
    exact hsfs

end Ucore.Fs
