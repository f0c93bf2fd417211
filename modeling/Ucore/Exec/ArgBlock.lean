import Ucore.Exec.Segments

/-!
The arguments on the stack of a new program. They are stored through the kernel addresses of the
pages, so that a string that goes over the end of a page goes on in the next frame of physical
memory, whatever page of the stack that is.
-/
namespace Ucore.Exec

open Library Library.Logged Vm

variable {M : PmmManager} {K F : Set ℕ} {f : ExecFile} {k : KernelHeap} {args : ExecArgs}
  {m m' : Mem M} {pd la va dst frame : ℕ} {bytes : List UInt8}

/-- The bytes lie at the user address. -/
def BytesAt (m : Mem M) (pd va : ℕ) (bytes : List UInt8) : Prop :=
  ∀ i < bytes.length, m.userByte pd (va + i) = some (bytes.getD i 0)

theorem BytesAt.append {xs ys : List UInt8} (hx : BytesAt m pd va xs)
    (hy : BytesAt m pd (va + xs.length) ys) : BytesAt m pd va (xs ++ ys) := by
  intro i hi
  rw [List.length_append] at hi
  by_cases hlt : i < xs.length
  · rw [hx i hlt, List.getD_append _ _ _ _ hlt]
  · have hbyte := hy (i - xs.length) (by omega)
    rw [Nat.add_assoc, Nat.add_sub_cancel' (Nat.le_of_not_lt hlt)] at hbyte
    rw [hbyte, List.getD_append_right _ _ _ _ (Nat.le_of_not_lt hlt)]

theorem BytesAt.congr (h : BytesAt m pd va bytes)
    (hsame : ∀ i < bytes.length, m'.userByte pd (va + i) = m.userByte pd (va + i)) :
    BytesAt m' pd va bytes := by
  intro i hi
  rw [hsame i hi]
  exact h i hi

/-- A range of bytes stays in one page, or the frame of the next page is the next frame. -/
def GoesOn (m : Mem M) (pd dst len : ℕ) : Prop :=
  dst % pgSize + len ≤ pgSize ∨
    ∀ frame, getPage m pd dst = some frame → getPage m pd (dst + pgSize) = some (frame + 1)

/-- A frame of the stack. -/
def StackFrame (m : Mem M) (pd frame : ℕ) : Prop :=
  ∃ la, uStackTop - uStackSize ≤ la ∧ la < uStackTop ∧ m.PageAt pd la frame

/-- Each page of the stack has a frame of its own. -/
def StackMapped (m : Mem M) (pd : ℕ) : Prop :=
  ∀ la, uStackTop - uStackSize ≤ la → la < uStackTop → ∃ frame, m.PageAt pd la frame

/-- The store writes to such frames only. -/
def StoresTo (P : ℕ → Prop) (e : ExecEvent) : Prop :=
  ∀ frame off len, e = .store frame off len → ∀ x, off ≤ x → x < off + len → P (frame + x / pgSize)

theorem getPage_of_pageAt (h : m.PageAt pd la frame) : getPage m pd la = some frame := by
  unfold getPage
  rw [if_pos h.valid, h.ppn]

theorem pageAt_of_getPage (hst : StackMapped m pd) (h1 : uStackTop - uStackSize ≤ la)
    (h2 : la < uStackTop) (h : getPage m pd la = some frame) : m.PageAt pd la frame := by
  obtain ⟨frame', hat⟩ := hst la h1 h2
  rw [getPage_of_pageAt hat] at h
  rwa [Option.some.inj h] at hat

/-- The page tables are the same. -/
def SameTables (m m' : Mem M) (pd : ℕ) : Prop := ∀ x, m'.entry pd x = m.entry pd x

theorem SameTables.getPage (h : SameTables m m' pd) (x : ℕ) :
    getPage m' pd x = getPage m pd x := by
  unfold Exec.getPage
  rw [h x]

theorem SameTables.pageAt (h : SameTables m m' pd) : m'.PageAt pd la frame ↔ m.PageAt pd la frame := by
  constructor
  · intro hat
    refine ⟨hat.below, ?_, ?_, ?_⟩
    · rw [← h la]
      exact hat.valid
    · rw [← h la]
      exact hat.ppn
    · intro x hx
      rw [← h x]
      exact hat.alone x hx
  · intro hat
    refine ⟨hat.below, ?_, ?_, ?_⟩
    · rw [h la]
      exact hat.valid
    · rw [h la]
      exact hat.ppn
    · intro x hx
      rw [h x]
      exact hat.alone x hx

theorem SameTables.stackMapped (h : SameTables m m' pd) (hst : StackMapped m pd) :
    StackMapped m' pd := by
  intro x h1 h2
  obtain ⟨frame, hat⟩ := hst x h1 h2
  exact ⟨frame, h.pageAt.mpr hat⟩

theorem SameTables.trans {m'' : Mem M} (h : SameTables m m' pd) (h' : SameTables m' m'' pd) :
    SameTables m m'' pd := fun x => (h' x).trans (h x)

theorem SameTables.goesOn {len : ℕ} (h : SameTables m m' pd) :
    GoesOn m' pd dst len ↔ GoesOn m pd dst len := by
  unfold GoesOn
  rw [h.getPage, h.getPage]

theorem SameTables.stackFrame (h : SameTables m m' pd) :
    StackFrame m' pd frame ↔ StackFrame m pd frame := by
  unfold StackFrame
  simp only [h.pageAt]

/-- Where the next frame is that of the next page, the bytes arrive. -/
theorem writeFrames_userByte (hat : m.PageAt pd dst frame) (hlen : bytes.length ≤ pgSize)
    (hnext : dst % pgSize + bytes.length ≤ pgSize ∨ m.PageAt pd (dst + pgSize) (frame + 1))
    (va : ℕ) : (writeFrames m frame (dst % pgSize) bytes).userByte pd va =
      if dst ≤ va ∧ va < dst + bytes.length then some (bytes.getD (va - dst) 0)
      else m.userByte pd va := by
  have htables : SameTables m (writeFrames m frame (dst % pgSize) bytes) pd := fun _ => rfl
  have hmod : va % pgSize < pgSize := Nat.mod_lt va (by decide)
  by_cases hpage : va / pgSize = dst / pgSize
  · rw [(htables.pageAt.mpr hat).userByte hpage, hat.userByte hpage]
    change some (if _ then _ else _) = _
    by_cases hin : dst ≤ va ∧ va < dst + bytes.length
    · have hoff : frame * pgSize + va % pgSize - (frame * pgSize + dst % pgSize) = va - dst := by
        unfold pgSize at *
        omega
      rw [if_pos hin, if_pos (by unfold pgSize at *; omega), hoff]
    · rw [if_neg hin, if_neg (by unfold pgSize at *; omega)]
  · by_cases hsucc : va / pgSize = (dst + pgSize) / pgSize ∧ pgSize < dst % pgSize + bytes.length
    · obtain ⟨hva, hcross⟩ := hsucc
      have hat' : m.PageAt pd (dst + pgSize) (frame + 1) := by
        rcases hnext with hle | hat'
        · omega
        · exact hat'
      rw [(htables.pageAt.mpr hat').userByte hva, hat'.userByte hva]
      change some (if _ then _ else _) = _
      by_cases hin : dst ≤ va ∧ va < dst + bytes.length
      · have hoff : (frame + 1) * pgSize + va % pgSize - (frame * pgSize + dst % pgSize) =
            va - dst := by
          unfold pgSize at *
          omega
        rw [if_pos hin, if_pos (by unfold pgSize at *; omega), hoff]
      · rw [if_neg hin, if_neg (by unfold pgSize at *; omega)]
    · rw [if_neg (by unfold pgSize at *; omega)]
      unfold Mem.userByte
      rw [htables va]
      by_cases hv : va < userTop ∧ hasFlag (m.entry pd va) pteV = true
      · rw [if_pos hv, if_pos hv]
        -- the frame is neither the first nor, where it is reached, the second one
        have hne : ptePpn (m.entry pd va) ≠ frame := fun heq => hpage (hat.alone va hv.1 hv.2 heq)
        have hne' : pgSize < dst % pgSize + bytes.length → ptePpn (m.entry pd va) ≠ frame + 1 := by
          intro hcross heq
          rcases hnext with hle | hat'
          · omega
          · exact hsucc ⟨hat'.alone va hv.1 hv.2 heq, hcross⟩
        refine congrArg some (if_neg ?_)
        have hdst : dst % pgSize < pgSize := Nat.mod_lt dst (by decide)
        generalize ptePpn (m.entry pd va) = q at hne hne'
        unfold pgSize at *
        omega
      · rw [if_neg hv, if_neg hv]

/-- Memory after stores in the range from `lo` to `hi`. -/
structure Stored (m m' : Mem M) (pd lo hi : ℕ) : Prop where
  tables : SameTables m m' pd
  others : ∀ va, ¬ (lo ≤ va ∧ va < hi) → m'.userByte pd va = m.userByte pd va

theorem Stored.trans {m₁ m₂ : Mem M} {lo hi lo' hi' : ℕ} (h : Stored m m₁ pd lo hi)
    (h' : Stored m₁ m₂ pd lo' hi') {a b : ℕ} (hlo : a ≤ lo ∧ a ≤ lo') (hhi : hi ≤ b ∧ hi' ≤ b) :
    Stored m m₂ pd a b := by
  refine ⟨h.tables.trans h'.tables, ?_⟩
  intro va hva
  rw [h'.others va (fun hbad => hva ⟨by omega, by omega⟩),
    h.others va (fun hbad => hva ⟨by omega, by omega⟩)]

/-- What lies outside of the range is still there. -/
theorem Stored.bytesAt {lo hi : ℕ} (h : Stored m m' pd lo hi) (hb : BytesAt m pd va bytes)
    (hout : va + bytes.length ≤ lo ∨ hi ≤ va) : BytesAt m' pd va bytes := by
  refine hb.congr ?_
  intro i hi'
  exact h.others _ (fun hbad => by omega)

/-- The store that is noted for some bytes at a user address. -/
def region (m : Mem M) (pd dst len : ℕ) : ExecEvent :=
  .store ((getPage m pd dst).getD 0) (dst % pgSize) len

theorem SameTables.region (h : SameTables m m' pd) (dst len : ℕ) :
    region m' pd dst len = region m pd dst len := by
  unfold Exec.region
  rw [h.getPage]

theorem storeArg_eq_some (hrun : (storeArg m pd dst bytes).result = some m') :
    ∃ frame, getPage m pd dst = some frame ∧ m' = writeFrames m frame (dst % pgSize) bytes ∧
      (storeArg m pd dst bytes).log = [region m pd dst bytes.length] := by
  obtain ⟨frame, hget, hrun⟩ := result_bind_eq_some hrun
  have hlog := log_bind_of_result (f := fun frame => if frame * pgSize + dst % pgSize +
    bytes.length ≤ M.npage * pgSize then (do
      Logged.tell [ExecEvent.store frame (dst % pgSize) bytes.length]
      pure (writeFrames m frame (dst % pgSize) bytes)) else Logged.ofOption none) hget
  rw [result_ofOption] at hget
  by_cases hroom : frame * pgSize + dst % pgSize + bytes.length ≤ M.npage * pgSize
  · rw [if_pos hroom] at hrun hlog
    obtain ⟨-, -, hrun⟩ := result_bind_eq_some hrun
    simp only [result_pure, Option.some.injEq] at hrun
    refine ⟨frame, hget, hrun.symm, ?_⟩
    unfold region
    rw [hget]
    exact hlog
  · rw [if_neg hroom] at hrun
    exact absurd hrun (by simp)

theorem storeArg_tables (hrun : (storeArg m pd dst bytes).result = some m') :
    SameTables m m' pd := by
  obtain ⟨frame, -, rfl, -⟩ := storeArg_eq_some hrun
  exact fun _ => rfl

/-- One `memcpy` of the set-up. -/
theorem storeArg_stored (hst : StackMapped m pd) (h1 : uStackTop - uStackSize ≤ dst)
    (h2 : dst + bytes.length ≤ uStackTop) (hpos : 0 < bytes.length)
    (hlen : bytes.length ≤ pgSize) (hon : GoesOn m pd dst bytes.length)
    (hrun : (storeArg m pd dst bytes).result = some m') :
    Stored m m' pd dst (dst + bytes.length) ∧ BytesAt m' pd dst bytes := by
  obtain ⟨frame, hget, rfl, -⟩ := storeArg_eq_some hrun
  have hat := pageAt_of_getPage hst h1 (by omega) hget
  have hnext : dst % pgSize + bytes.length ≤ pgSize ∨ m.PageAt pd (dst + pgSize) (frame + 1) := by
    rcases hon with hle | hfollow
    · exact Or.inl hle
    · by_cases hle : dst % pgSize + bytes.length ≤ pgSize
      · exact Or.inl hle
      · refine Or.inr (pageAt_of_getPage hst (by omega) ?_ (hfollow frame hget))
        have htop : uStackTop % pgSize = 0 := by decide
        unfold pgSize at *
        omega
  have hbytes := writeFrames_userByte hat hlen hnext
  refine ⟨⟨fun _ => rfl, ?_⟩, ?_⟩
  · intro va hva
    rw [hbytes va, if_neg hva]
  · intro i hi
    rw [hbytes, if_pos ⟨by omega, by omega⟩, Nat.add_sub_cancel_left]

/-- A store stays on the stack if it ends in its page or the frame behind it is one of the stack. -/
theorem storesTo_region_iff {len : ℕ} (hst : StackMapped m pd) (h1 : uStackTop - uStackSize ≤ dst)
    (h2 : dst < uStackTop) (hpos : 0 < len) (hlen : len ≤ pgSize) :
    StoresTo (StackFrame m pd) (region m pd dst len) ↔ dst % pgSize + len ≤ pgSize ∨
      ∀ frame, getPage m pd dst = some frame → StackFrame m pd (frame + 1) := by
  obtain ⟨frame, hat⟩ := hst dst h1 h2
  have hget := getPage_of_pageAt hat
  have hmod : dst % pgSize < pgSize := Nat.mod_lt dst (by decide)
  unfold region
  rw [hget, Option.getD_some]
  constructor
  · intro hstores
    by_cases hle : dst % pgSize + len ≤ pgSize
    · exact Or.inl hle
    · refine Or.inr ?_
      intro frame' hframe
      obtain rfl := Option.some.inj hframe
      have hone := hstores _ _ _ rfl pgSize (by omega) (by omega)
      rwa [Nat.div_self (by decide)] at hone
  · intro hcond frame' off len' heq x hx1 hx2
    obtain ⟨rfl, rfl, rfl⟩ := ExecEvent.store.inj heq
    by_cases hin : x < pgSize
    · rw [Nat.div_eq_of_lt hin, Nat.add_zero]
      exact ⟨dst, h1, h2, hat⟩
    · have hone : x / pgSize = 1 := by
        unfold pgSize at *
        omega
      rw [hone]
      rcases hcond with hle | hnext
      · omega
      · exact hnext _ rfl

/-! The strings. -/

/-- The room for the strings, each with its NUL. -/
def stringsSize (l : List (List UInt8)) : ℕ := (l.map fun s => s.length + 1).sum

/-- The addresses of the strings below `top`. -/
def stringAddrs (top : ℕ) : List (List UInt8) → List ℕ
  | [] => []
  | s :: rest => (top - stringsSize (s :: rest)) :: stringAddrs top rest

theorem stringsSize_append (l l' : List (List UInt8)) :
    stringsSize (l ++ l') = stringsSize l + stringsSize l' := by
  unfold stringsSize
  rw [List.map_append, List.sum_append]

theorem stringsSize_append_singleton (l : List (List UInt8)) (s : List UInt8) :
    stringsSize (l ++ [s]) = stringsSize l + (s.length + 1) := by
  rw [stringsSize_append]
  rfl

theorem stringAddrs_append (top : ℕ) (l : List (List UInt8)) (s : List UInt8) :
    stringAddrs top (l ++ [s]) = stringAddrs (top - (s.length + 1)) l ++ [top - (s.length + 1)] := by
  induction l with
  | nil => rfl
  | cons t l ih =>
    have hsize : stringsSize (t :: (l ++ [s])) = s.length + 1 + stringsSize (t :: l) := by
      rw [← List.cons_append, stringsSize_append, Nat.add_comm]
      rfl
    simp only [List.cons_append, stringAddrs, ih, hsize, Nat.sub_add_eq]

theorem forall₂_append_singleton {α β : Type} {R : α → β → Prop} {xs : List α} {ys : List β}
    {a : α} {b : β} :
    List.Forall₂ R (xs ++ [a]) (ys ++ [b]) ↔ List.Forall₂ R xs ys ∧ R a b := by
  rw [← List.forall₂_reverse_iff, List.reverse_append, List.reverse_append]
  simp only [List.reverse_singleton, List.singleton_append, List.forall₂_cons,
    List.forall₂_reverse_iff, and_comm]

/-- Every string goes on in the page behind it. -/
def StringsGoOn (m : Mem M) (pd top : ℕ) (l : List (List UInt8)) : Prop :=
  List.Forall₂ (fun a s => GoesOn m pd a (s.length + 1)) (stringAddrs top l) l

theorem SameTables.stringsGoOn {top : ℕ} {l : List (List UInt8)} (h : SameTables m m' pd) :
    StringsGoOn m' pd top l ↔ StringsGoOn m pd top l := by
  unfold StringsGoOn
  simp only [h.goesOn]

/-- What `pushStrings` does first, if the stack has room. -/
theorem pushStrings_append {l : List (List UInt8)} {s : List UInt8} {p p' : Pushed M} {ret : ℤ}
    (htop : p.sp ≤ uStackTop) (hroom : uStackTop - uStackSize + stringsSize (l ++ [s]) ≤ p.sp)
    (hrun : (pushStrings pd (l ++ [s]).reverse p).result = some (ret, p')) :
    ∃ m₁, (storeArg p.mem pd (p.sp - (s.length + 1)) (s ++ [0])).result = some m₁ ∧
      (pushStrings pd l.reverse
        ⟨m₁, p.sp - (s.length + 1), (p.sp - (s.length + 1)) :: p.uargv⟩).result = some (ret, p') ∧
      (pushStrings pd (l ++ [s]).reverse p).log =
        (storeArg p.mem pd (p.sp - (s.length + 1)) (s ++ [0])).log ++ (pushStrings pd l.reverse
          ⟨m₁, p.sp - (s.length + 1), (p.sp - (s.length + 1)) :: p.uargv⟩).log := by
  rw [stringsSize_append_singleton] at hroom
  have hlimit : uStackTop < wordLimit := by decide
  have hsp : (p.sp + wordLimit - (s.length + 1)) % wordLimit = p.sp - (s.length + 1) := by
    have hsum : p.sp + wordLimit - (s.length + 1) = p.sp - (s.length + 1) + wordLimit := by omega
    rw [hsum, Nat.add_mod_right, Nat.mod_eq_of_lt (by omega)]
  rw [List.reverse_append, List.reverse_singleton, List.singleton_append, pushStrings, hsp,
    if_neg (by omega)] at hrun ⊢
  obtain ⟨m₁, hstore, hrest⟩ := result_bind_eq_some hrun
  exact ⟨m₁, hstore, hrest, log_bind_of_result hstore _⟩

theorem pushStrings_nil {p p' : Pushed M} {ret : ℤ}
    (hrun : (pushStrings pd [] p).result = some (ret, p')) : ret = 0 ∧ p' = p := by
  rw [pushStrings] at hrun
  obtain ⟨rfl, rfl⟩ := Prod.mk.inj (Option.some.inj hrun)
  exact ⟨rfl, rfl⟩

/-- The strings are stored from the last one to the first. -/
theorem pushStrings_run {l : List (List UInt8)} {p p' : Pushed M} {ret : ℤ}
    (htop : p.sp ≤ uStackTop) (hroom : uStackTop - uStackSize + stringsSize l ≤ p.sp)
    (hrun : (pushStrings pd l.reverse p).result = some (ret, p')) :
    ret = 0 ∧ p'.sp = p.sp - stringsSize l ∧ p'.uargv = stringAddrs p.sp l ++ p.uargv ∧
      SameTables p.mem p'.mem pd := by
  induction l using List.reverseRecOn generalizing p with
  | nil =>
    obtain ⟨rfl, rfl⟩ := pushStrings_nil hrun
    exact ⟨rfl, rfl, rfl, fun _ => rfl⟩
  | append_singleton l s ih =>
    obtain ⟨m₁, hstore, hrest, -⟩ := pushStrings_append htop hroom hrun
    rw [stringsSize_append_singleton] at hroom ⊢
    obtain ⟨hret, hlow, hargv, htables⟩ := ih (by simp only; omega) (by simp only; omega) hrest
    simp only at hlow hargv htables
    refine ⟨hret, by omega, ?_, (storeArg_tables hstore).trans htables⟩
    rw [hargv, stringAddrs_append, List.append_assoc, List.singleton_append]

theorem pushStrings_log {l : List (List UInt8)} {p p' : Pushed M} {ret : ℤ} {P : ExecEvent → Prop}
    (htop : p.sp ≤ uStackTop) (hroom : uStackTop - uStackSize + stringsSize l ≤ p.sp)
    (hrun : (pushStrings pd l.reverse p).result = some (ret, p')) :
    (∀ e ∈ (pushStrings pd l.reverse p).log, P e) ↔
      List.Forall₂ (fun a s => P (region p.mem pd a (s.length + 1))) (stringAddrs p.sp l) l := by
  induction l using List.reverseRecOn generalizing p with
  | nil =>
    rw [List.reverse_nil, pushStrings]
    simp [stringAddrs]
  | append_singleton l s ih =>
    obtain ⟨m₁, hstore, hrest, hlog⟩ := pushStrings_append htop hroom hrun
    rw [stringsSize_append_singleton] at hroom
    have hih := ih (by simp only; omega) (by simp only; omega) hrest
    obtain ⟨frame, -, -, hone⟩ := storeArg_eq_some hstore
    simp only [(storeArg_tables hstore).region] at hih
    rw [hlog, List.forall_mem_append, hih, hone, stringAddrs_append, forall₂_append_singleton,
      and_comm, List.forall_mem_singleton, List.length_append, List.length_singleton]

/-- The strings arrive if each goes on in the page behind it. -/
theorem pushStrings_stored {l : List (List UInt8)} {p p' : Pushed M} {ret : ℤ}
    (hst : StackMapped p.mem pd) (htop : p.sp ≤ uStackTop)
    (hroom : uStackTop - uStackSize + stringsSize l ≤ p.sp)
    (hshort : ∀ s ∈ l, s.length ≤ execMaxArgLen) (hon : StringsGoOn p.mem pd p.sp l)
    (hrun : (pushStrings pd l.reverse p).result = some (ret, p')) :
    Stored p.mem p'.mem pd (p.sp - stringsSize l) p.sp ∧
      List.Forall₂ (fun a s => BytesAt p'.mem pd a (s ++ [0])) (stringAddrs p.sp l) l := by
  induction l using List.reverseRecOn generalizing p with
  | nil =>
    obtain ⟨rfl, rfl⟩ := pushStrings_nil hrun
    exact ⟨⟨fun _ => rfl, fun _ _ => rfl⟩, List.Forall₂.nil⟩
  | append_singleton l s ih =>
    obtain ⟨m₁, hstore, hrest, -⟩ := pushStrings_append htop hroom hrun
    have hlen := hshort s (List.mem_append_right _ List.mem_cons_self)
    have hfull : (s ++ [0]).length = s.length + 1 := List.length_append
    unfold StringsGoOn at hon
    rw [stringsSize_append_singleton] at hroom ⊢
    rw [stringAddrs_append] at hon ⊢
    obtain ⟨hons, hon⟩ := forall₂_append_singleton.mp hon
    generalize hsp : p.sp - (s.length + 1) = sp at *
    obtain ⟨hone, hbytes⟩ := storeArg_stored hst (by omega) (by omega) (by omega)
      (by unfold execMaxArgLen at hlen; unfold pgSize; omega) (hfull ▸ hon) hstore
    obtain ⟨hmany, hall⟩ := ih (hone.tables.stackMapped hst) (by simp only; omega)
      (by simp only; omega) (fun t ht => hshort t (List.mem_append_left _ ht))
      (hone.tables.stringsGoOn.mpr hons) hrest
    simp only at hmany hall
    refine ⟨hone.trans hmany (by omega) (by omega), ?_⟩
    exact forall₂_append_singleton.mpr ⟨hall, hmany.bytesAt hbytes (Or.inr le_rfl)⟩

theorem stringsSize_le {l : List (List UInt8)} (h : ∀ s ∈ l, s.length ≤ execMaxArgLen) :
    stringsSize l ≤ l.length * pgSize := by
  induction l with
  | nil => exact Nat.zero_le _
  | cons s l ih =>
    have hsize : stringsSize (s :: l) = s.length + 1 + stringsSize l := rfl
    have hone := h s List.mem_cons_self
    have hrest := ih (fun t ht => h t (List.mem_cons_of_mem s ht))
    rw [hsize, List.length_cons, Nat.add_one_mul]
    unfold execMaxArgLen at hone
    unfold pgSize at *
    omega

theorem forall₂_imp_of {α β : Type} {C R S : α → β → Prop} (h : ∀ a b, C a b → R a b → S a b)
    {xs : List α} {ys : List β} (hc : List.Forall₂ C xs ys) (hr : List.Forall₂ R xs ys) :
    List.Forall₂ S xs ys := by
  induction hc with
  | nil => exact List.Forall₂.nil
  | cons hab _ ih =>
    obtain ⟨hab', hrest⟩ := List.forall₂_cons.mp hr
    exact List.Forall₂.cons (h _ _ hab hab') (ih hrest)

/-- Each string lies behind the last one that is stored, and below the top. -/
theorem stringAddrs_between (top : ℕ) {l : List (List UInt8)} (h : stringsSize l ≤ top)
    (hshort : ∀ s ∈ l, s.length ≤ execMaxArgLen) :
    List.Forall₂ (fun a s => top - stringsSize l ≤ a ∧ a + (s.length + 1) ≤ top ∧
      s.length + 1 ≤ pgSize) (stringAddrs top l) l := by
  induction l with
  | nil => exact List.Forall₂.nil
  | cons s l ih =>
    have hsize : stringsSize (s :: l) = s.length + 1 + stringsSize l := rfl
    rw [hsize] at h
    have hone := hshort s List.mem_cons_self
    have hrest := ih (by omega) (fun t ht => hshort t (List.mem_cons_of_mem s ht))
    refine List.Forall₂.cons ⟨le_rfl, by omega, Nat.succ_le_succ hone⟩ (hrest.imp ?_)
    intro a t hat
    exact ⟨by omega, hat.2⟩

/-! The pointers and the number of the arguments. -/

theorem length_leBytes (n v : ℕ) : (leBytes n v).length = n := by
  induction n generalizing v with
  | zero => rfl
  | succ n ih => rw [leBytes, List.length_cons, ih]

theorem aligned_fits {n : ℕ} (hdst : dst % n = 0) (hpage : pgSize % n = 0) :
    dst % pgSize + n ≤ pgSize := by
  have hmod : dst % pgSize < pgSize := Nat.mod_lt dst (by decide)
  have hdvd : n ∣ pgSize - dst % pgSize :=
    Nat.dvd_sub (Nat.dvd_of_mod_eq_zero hpage)
      ((Nat.dvd_mod_iff (Nat.dvd_of_mod_eq_zero hpage)).mpr (Nat.dvd_of_mod_eq_zero hdst))
  have hle := Nat.le_of_dvd (by omega) hdvd
  omega

/-- A word that is aligned arrives. -/
theorem storeWord_stored {n v : ℕ} (hst : StackMapped m pd) (h1 : uStackTop - uStackSize ≤ dst)
    (h2 : dst + n ≤ uStackTop) (hdst : dst % n = 0) (hn : 0 < n) (hpage : pgSize % n = 0)
    (hrun : (storeArg m pd dst (leBytes n v)).result = some m') :
    Stored m m' pd dst (dst + n) ∧ BytesAt m' pd dst (leBytes n v) ∧
      ∀ e ∈ (storeArg m pd dst (leBytes n v)).log, StoresTo (StackFrame m pd) e := by
  have hlen := length_leBytes n v
  have hfits := aligned_fits hdst hpage
  obtain ⟨hone, hbytes⟩ := storeArg_stored hst h1 (by omega) (by omega) (by omega)
    (Or.inl (hlen.symm ▸ hfits)) hrun
  rw [hlen] at hone
  refine ⟨hone, hbytes, ?_⟩
  obtain ⟨frame, hget, -, hlog⟩ := storeArg_eq_some hrun
  rw [hlog, List.forall_mem_singleton, hlen, storesTo_region_iff hst h1 (by omega) hn (by omega)]
  exact Or.inl hfits

theorem length_pointers (l : List ℕ) :
    (l.flatMap (leBytes 8) ++ leBytes 8 0).length = 8 * (l.length + 1) := by
  induction l with
  | nil => rfl
  | cons a l ih =>
    rw [List.flatMap_cons, List.append_assoc, List.length_append, ih, length_leBytes,
      List.length_cons]
    omega

theorem StoresTo.congr {e : ExecEvent} (h : SameTables m m' pd)
    (hstores : StoresTo (StackFrame m' pd) e) : StoresTo (StackFrame m pd) e := by
  intro frame off len heq x h1 h2
  exact h.stackFrame.mp (hstores frame off len heq x h1 h2)

theorem storePointers_stored {l : List ℕ} (hst : StackMapped m pd)
    (h1 : uStackTop - uStackSize ≤ dst) (h2 : dst + 8 * (l.length + 1) ≤ uStackTop)
    (hdst : dst % 8 = 0) (hrun : (storePointers pd l dst m).result = some m') :
    Stored m m' pd dst (dst + 8 * (l.length + 1)) ∧
      BytesAt m' pd dst (l.flatMap (leBytes 8) ++ leBytes 8 0) ∧
      ∀ e ∈ (storePointers pd l dst m).log, StoresTo (StackFrame m pd) e := by
  induction l generalizing dst m with
  | nil => exact storeWord_stored hst h1 h2 hdst (by decide) (by decide) hrun
  | cons a l ih =>
    rw [List.length_cons] at h2
    obtain ⟨m₁, hstore, hrest⟩ := result_bind_eq_some hrun
    obtain ⟨hone, hword, hlog⟩ :=
      storeWord_stored hst h1 (by omega) hdst (by decide) (by decide) hstore
    obtain ⟨hmany, hwords, hlogs⟩ := ih (hone.tables.stackMapped hst) (by omega) (by omega)
      (by omega) hrest
    refine ⟨hone.trans hmany ?_ ?_, ?_, ?_⟩
    · omega
    · rw [List.length_cons]
      omega
    · rw [List.flatMap_cons, List.append_assoc]
      have hlen := length_leBytes 8 a
      exact (hmany.bytesAt hword (by omega)).append (hlen.symm ▸ hwords)
    · rw [storePointers, log_bind_of_result hstore, List.forall_mem_append]
      exact ⟨hlog, fun e he => (hlogs e he).congr hone.tables⟩

/-! The whole set-up. -/

/-- Where a string crosses a page, the frame behind the one where it starts is one of the stack. -/
def StringsOnStack (m : Mem M) (pd : ℕ) (l : List (List UInt8)) : Prop :=
  List.Forall₂ (fun a s => a % pgSize + (s.length + 1) ≤ pgSize ∨
    ∀ frame, getPage m pd a = some frame → StackFrame m pd (frame + 1)) (stringAddrs uStackTop l) l

/-- The places of the block. -/
theorem argvUser_range {size argc : ℕ} (hsize : size ≤ 32 * pgSize) (hargc : argc ≤ 32) :
    argvUser (uStackTop - size) argc % 8 = 0 ∧
      argvUser (uStackTop - size) argc + 8 * (argc + 1) ≤ uStackTop - size ∧
      uStackTop - uStackSize ≤ initialSp (argvUser (uStackTop - size) argc) ∧
      initialSp (argvUser (uStackTop - size) argc) < argvUser (uStackTop - size) argc - 4 := by
  have htop : uStackTop = 2147483648 := by decide
  have hstack : uStackSize = 1048576 := by decide
  unfold argvUser initialSp roundDown
  rw [htop, hstack]
  unfold pgSize at hsize
  omega

theorem ExecArgs.stringsSize_le (args : ExecArgs) : stringsSize args.kargv ≤ 32 * pgSize :=
  (Exec.stringsSize_le args.short).trans (Nat.mul_le_mul_right pgSize args.argc_le)

theorem ExecArgs.room (args : ExecArgs) :
    uStackTop - uStackSize + stringsSize args.kargv ≤ uStackTop := by
  have hsize := args.stringsSize_le
  have hstack : 32 * pgSize ≤ uStackSize := by decide
  have htop : uStackSize ≤ uStackTop := by decide
  omega

theorem StringsGoOn.onStack (hst : StackMapped m pd)
    (h : StringsGoOn m pd uStackTop args.kargv) : StringsOnStack m pd args.kargv := by
  have hroom := args.room
  refine forall₂_imp_of ?_ (stringAddrs_between uStackTop (by omega) args.short) h
  intro a s hin hon
  by_cases hle : a % pgSize + (s.length + 1) ≤ pgSize
  · exact Or.inl hle
  · refine Or.inr ?_
    intro frame hget
    rcases hon with hle' | hfollow
    · exact absurd hle' hle
    · have hhigh : a + pgSize < uStackTop := by
        have htop : uStackTop % pgSize = 0 := by decide
        unfold pgSize at *
        omega
      refine ⟨a + pgSize, by omega, hhigh, ?_⟩
      exact pageAt_of_getPage hst (by omega) hhigh (hfollow frame hget)

/-- What `setupArgs` calls. -/
theorem setupArgs_eq_some {ret : ℤ} {argv : ℕ}
    (hrun : (setupArgs m pd args).result = some (ret, m', argv)) : ∃ p m₁,
    (pushStrings pd args.kargv.reverse ⟨m, uStackTop, []⟩).result = some (0, p) ∧
    argv = argvUser p.sp args.kargv.length ∧
    (storePointers pd p.uargv argv p.mem).result = some m₁ ∧
    (storeArg m₁ pd (argv - 4) (leBytes 4 args.kargv.length)).result = some m' ∧ ret = 0 ∧
    (setupArgs m pd args).log = (pushStrings pd args.kargv.reverse ⟨m, uStackTop, []⟩).log ++
      (storePointers pd p.uargv argv p.mem).log ++
      (storeArg m₁ pd (argv - 4) (leBytes 4 args.kargv.length)).log := by
  have hsize := args.stringsSize_le
  have htop : uStackTop = 2147483648 := by decide
  have hstack : uStackSize = 1048576 := by decide
  obtain ⟨⟨ret', p⟩, hpush, hrest⟩ := result_bind_eq_some hrun
  obtain ⟨rfl, -⟩ := pushStrings_run (l := args.kargv) (p := ⟨m, uStackTop, []⟩) le_rfl
    (by simp only; unfold pgSize at hsize; omega) hpush
  obtain ⟨m₁, hptr, hrest⟩ := result_bind_eq_some hrest
  obtain ⟨m₂, hword, hrest⟩ := result_bind_eq_some hrest
  simp only [result_pure, Option.some.injEq, Prod.mk.injEq] at hrest
  obtain ⟨rfl, rfl, rfl⟩ := hrest
  refine ⟨p, m₁, hpush, rfl, hptr, hword, rfl, ?_⟩
  rw [List.append_assoc]
  refine (log_bind_of_result hpush _).trans (congrArg _ ?_)
  refine (log_bind_of_result hptr _).trans (congrArg _ ?_)
  exact (log_bind_of_result hword _).trans (List.append_nil _)

/-- The strings are stored on the stack alone if and only if none that crosses a page goes to
another frame. -/
theorem pushArgs_stores_iff (hst : StackMapped m pd) {p : Pushed M} {ret : ℤ}
    (hpush : (pushStrings pd args.kargv.reverse ⟨m, uStackTop, []⟩).result = some (ret, p)) :
    (∀ e ∈ (pushStrings pd args.kargv.reverse ⟨m, uStackTop, []⟩).log,
      StoresTo (StackFrame m pd) e) ↔ StringsOnStack m pd args.kargv := by
  have hroom := args.room
  rw [pushStrings_log (l := args.kargv) (p := ⟨m, uStackTop, []⟩) le_rfl hroom hpush]
  have hin := stringAddrs_between uStackTop (by omega) args.short
  constructor
  · refine forall₂_imp_of ?_ hin
    intro a s hat hstores
    exact (storesTo_region_iff hst (by omega) (by omega) (Nat.succ_pos _) hat.2.2).mp hstores
  · refine forall₂_imp_of ?_ hin
    intro a s hat hcond
    exact (storesTo_region_iff hst (by omega) (by omega) (Nat.succ_pos _) hat.2.2).mpr hcond

/-- The block, with the places of its parts. -/
structure BlockAt (m : Mem M) (pd argv : ℕ) (kargv : List (List UInt8)) : Prop where
  count : BytesAt m pd (argv - 4) (leBytes 4 kargv.length)
  strings : ∃ uargv, BytesAt m pd argv (uargv.flatMap (leBytes 8) ++ leBytes 8 0) ∧
    List.Forall₂ (fun a s => argv + 8 * (kargv.length + 1) ≤ a ∧
      a + (s.length + 1) ≤ uStackTop ∧ BytesAt m pd a (s ++ [0])) uargv kargv

/-- What the set-up leaves: it returns 0; it stores on the stack alone if no string that crosses a
page goes to another frame; and the block is there if each string goes on in the next page. -/
theorem setupArgs_run (hst : StackMapped m pd) {ret : ℤ} {argv : ℕ}
    (hrun : (setupArgs m pd args).result = some (ret, m', argv)) :
    ret = 0 ∧ argv = argvUser (uStackTop - stringsSize args.kargv) args.kargv.length ∧
      SameTables m m' pd ∧
      ((∀ e ∈ (setupArgs m pd args).log, StoresTo (StackFrame m pd) e) ↔
        StringsOnStack m pd args.kargv) ∧
      (StringsGoOn m pd uStackTop args.kargv →
        Stored m m' pd (uStackTop - uStackSize) uStackTop ∧ BlockAt m' pd argv args.kargv) := by
  have hroom := args.room
  obtain ⟨p, m₁, hpush, rfl, hptr, hword, rfl, hlog⟩ := setupArgs_eq_some hrun
  obtain ⟨-, hsp, hargv, htables⟩ := pushStrings_run (l := args.kargv) (p := ⟨m, uStackTop, []⟩)
    le_rfl hroom hpush
  simp only [List.append_nil] at hsp hargv htables
  have hin := stringAddrs_between uStackTop (by omega) args.short
  have hcount : p.uargv.length = args.kargv.length := by
    rw [hargv]
    exact hin.length_eq
  obtain ⟨haligned, htop, hlow, habove⟩ := argvUser_range args.stringsSize_le args.argc_le
  rw [← hsp] at haligned htop hlow habove hin
  rw [← hsp]
  obtain ⟨hmany, hwords, hptrlog⟩ := storePointers_stored (htables.stackMapped hst) (by omega)
    (by rw [hcount]; omega) haligned hptr
  have htables₁ := htables.trans hmany.tables
  obtain ⟨hone, hargc, hwordlog⟩ := storeWord_stored (n := 4) (htables₁.stackMapped hst)
    (by omega) (by omega) (by omega) (by decide) (by decide) hword
  rw [hcount] at hmany
  refine ⟨rfl, rfl, htables₁.trans hone.tables, ?_, ?_⟩
  · rw [hlog, List.forall_mem_append, List.forall_mem_append, pushArgs_stores_iff hst hpush]
    constructor
    · exact fun h => h.1.1
    · intro h
      refine ⟨⟨h, ?_⟩, ?_⟩
      · exact fun e he => (hptrlog e he).congr htables
      · exact fun e he => (hwordlog e he).congr htables₁
  · intro hon
    obtain ⟨hstrs, hall⟩ := pushStrings_stored (l := args.kargv) (p := ⟨m, uStackTop, []⟩) hst
      le_rfl hroom args.short hon hpush
    simp only [← hsp] at hstrs hall
    refine ⟨(hstrs.trans hmany (a := uStackTop - uStackSize) (b := uStackTop) (by omega)
      (by omega)).trans hone (by omega) (by omega), hargc, p.uargv, ?_, ?_⟩
    · exact hone.bytesAt hwords (Or.inr (by omega))
    · rw [hargv]
      refine forall₂_imp_of ?_ hin hall
      intro a s hat hbytes
      refine ⟨by omega, hat.2.1, ?_⟩
      exact hone.bytesAt (hmany.bytesAt hbytes (Or.inr (by omega))) (Or.inr (by omega))

/-! What the set-up leaves alone. -/

/-- The frames without a noted store are as before. -/
def OnlyStores (m m' : Mem M) (log : List ExecEvent) : Prop :=
  ∀ (P : ℕ → Prop), (∀ e ∈ log, StoresTo P e) → ∀ q, ¬ P q → ∀ x < pgSize, m'.data q x = m.data q x

theorem OnlyStores.append {m₁ m₂ : Mem M} {l l' : List ExecEvent} (h : OnlyStores m m₁ l)
    (h' : OnlyStores m₁ m₂ l') : OnlyStores m m₂ (l ++ l') := by
  intro P hall q hq x hx
  rw [List.forall_mem_append] at hall
  exact (h' P hall.2 q hq x hx).trans (h P hall.1 q hq x hx)

theorem storeArg_only (hrun : (storeArg m pd dst bytes).result = some m') :
    OnlyStores m m' (storeArg m pd dst bytes).log := by
  obtain ⟨frame, hget, rfl, hlog⟩ := storeArg_eq_some hrun
  rw [hlog]
  intro P hall q hq x hx
  have hstores := hall _ List.mem_cons_self frame (dst % pgSize) bytes.length
    (by unfold region; rw [hget]; rfl)
  refine if_neg ?_
  rintro ⟨-, h1, h2⟩
  -- the byte is in the frame where the store puts it
  have hframe : q = frame + (q * pgSize + x - frame * pgSize) / pgSize := by
    unfold pgSize at *
    omega
  refine hq (hframe ▸ hstores _ ?_ ?_) <;> omega

theorem pushStrings_only {l : List (List UInt8)} {p p' : Pushed M} {ret : ℤ}
    (hrun : (pushStrings pd l p).result = some (ret, p')) :
    OnlyStores p.mem p'.mem (pushStrings pd l p).log := by
  induction l generalizing p with
  | nil =>
    obtain ⟨-, rfl⟩ := pushStrings_nil hrun
    exact fun _ _ _ _ _ _ => rfl
  | cons s l ih =>
    rw [pushStrings] at hrun ⊢
    by_cases hlow : (p.sp + wordLimit - (s.length + 1)) % wordLimit < uStackTop - uStackSize
    · rw [if_pos hlow] at hrun ⊢
      obtain ⟨-, rfl⟩ := Prod.mk.inj (Option.some.inj hrun)
      exact fun _ _ _ _ _ _ => rfl
    · rw [if_neg hlow] at hrun ⊢
      obtain ⟨m₁, hstore, hrest⟩ := result_bind_eq_some hrun
      rw [log_bind_of_result hstore]
      exact (storeArg_only hstore).append (ih hrest)

theorem storePointers_only {l : List ℕ} (hrun : (storePointers pd l dst m).result = some m') :
    OnlyStores m m' (storePointers pd l dst m).log := by
  induction l generalizing dst m with
  | nil => exact storeArg_only hrun
  | cons a l ih =>
    obtain ⟨m₁, hstore, hrest⟩ := result_bind_eq_some hrun
    rw [storePointers, log_bind_of_result hstore]
    exact (storeArg_only hstore).append (ih hrest)

/-- Below the stack nothing changes if all stores are on the stack. -/
theorem setupArgs_below {ret : ℤ} {argv : ℕ} (hst : StackMapped m pd)
    (hrun : (setupArgs m pd args).result = some (ret, m', argv))
    (hon : StringsOnStack m pd args.kargv) (hva : va < uStackTop - uStackSize) :
    m'.userByte pd va = m.userByte pd va := by
  obtain ⟨-, -, htables, hstores, -⟩ := setupArgs_run hst hrun
  obtain ⟨p, m₁, hpush, -, hptr, hword, -, hlog⟩ := setupArgs_eq_some hrun
  have honly := ((pushStrings_only hpush).append (storePointers_only hptr)).append
    (storeArg_only hword)
  rw [← hlog] at honly
  unfold Mem.userByte
  rw [htables va]
  by_cases hv : va < userTop ∧ hasFlag (m.entry pd va) pteV = true
  · rw [if_pos hv, if_pos hv]
    refine congrArg some (honly (StackFrame m pd) (hstores.mpr hon) _ ?_ _ (Nat.mod_lt va (by decide)))
    rintro ⟨la, h1, h2, hat⟩
    have hpage := hat.alone va hv.1 hv.2 rfl
    have hbottom : (uStackTop - uStackSize) % pgSize = 0 := by decide
    unfold pgSize at *
    omega
  · rw [if_neg hv, if_neg hv]

end Ucore.Exec
