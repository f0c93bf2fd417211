import Ucore.Fs.InodeCache

/-!
The reclaim protocol of the inodes in memory. `reclaim_count` is the number of processes on
the way to `sfs_reclaim`, and one more while there are references; so the last reclaim, and
no other, finds both counts zero.
-/
namespace Ucore.Fs.InodeCache

open Library

/-- What holds of an inode in memory. It is linked, or on its way to `vop_kill`. -/
structure NodeOk (c : InodeCache) (n : ℕ) (i : MemInode) : Prop where
  refs : i.refCount = tally c.held n
  opens : i.openCount = 0
  nlinks : i.nlinks ≠ 0
  serial : i.serial < c.nextSerial
  alive : i.serial ∉ c.killed
  phase : (n ∈ c.hashList (sinHashfn i.ino) ∧ tally c.killing n = 0 ∧
      i.reclaimCount = tally c.reclaiming n + (if 0 < i.refCount then 1 else 0)) ∨
    ((∀ h, n ∉ c.hashList h) ∧ tally c.killing n = 1 ∧ i.refCount = 0 ∧ tally c.reclaiming n = 0)
  outstanding : i.refCount = 0 → tally c.reclaiming n = 0 → tally c.killing n = 0 →
    i.serial ∈ c.failures

structure Inv (c : InodeCache) : Prop where
  live : ∀ n i, c.inode n = some i → c.NodeOk n i
  dead : ∀ n, c.inode n = none → tally c.held n = 0 ∧ tally c.reclaiming n = 0 ∧
    tally c.killing n = 0 ∧ ∀ h, n ∉ c.hashList h
  bucket : ∀ h, ∀ n ∈ c.hashList h, ∀ i, c.inode n = some i → sinHashfn i.ino = h
  nodup : ∀ h, (c.hashList h).Nodup
  unique : ∀ h, ∀ n ∈ c.hashList h, ∀ m ∈ c.hashList h, ∀ i j, c.inode n = some i →
    c.inode m = some j → i.ino = j.ino → n = m
  serials : ∀ n m i j, c.inode n = some i → c.inode m = some j → i.serial = j.serial → n = m
  killed : c.killed.Nodup
  old : ∀ k ∈ c.killed, k < c.nextSerial
  all : ∀ k < c.nextSerial, k ∈ c.killed ∨ ∃ n i, c.inode n = some i ∧ i.serial = k

variable {c c' : InodeCache} {n : ℕ} {i i' : MemInode}

theorem inv_empty : Inv empty := by
  constructor
  case dead => exact fun n _ => ⟨rfl, rfl, rfl, fun h => List.not_mem_nil⟩
  case all => exact fun k hk => absurd hk (Nat.not_lt_zero k)
  all_goals simp [empty]

/-- Something is known of each node that a process works on. -/
theorem Inv.some_of_pos (hi : Inv c) (h : 0 < tally c.held n + tally c.reclaiming n + tally c.killing n) :
    ∃ i, c.inode n = some i := by
  cases hn : c.inode n with
  | some i => exact ⟨i, rfl⟩
  | none =>
    obtain ⟨h1, h2, h3, -⟩ := hi.dead n hn
    omega

theorem Inv.some_of_linked (hi : Inv c) {h : ℕ} (hmem : n ∈ c.hashList h) :
    ∃ i, c.inode n = some i := by
  cases hn : c.inode n with
  | some i => exact ⟨i, rfl⟩
  | none => exact absurd hmem ((hi.dead n hn).2.2.2 h)

/-- Only the inode `n` and what is known about it changed. -/
structure Touched (n : ℕ) (c c' : InodeCache) : Prop where
  inode : ∀ m, m ≠ n → c'.inode m = c.inode m
  held : ∀ m, m ≠ n → tally c'.held m = tally c.held m
  reclaiming : ∀ m, m ≠ n → tally c'.reclaiming m = tally c.reclaiming m
  killing : ∀ m, m ≠ n → tally c'.killing m = tally c.killing m
  linked : ∀ m, m ≠ n → ∀ h, m ∈ c'.hashList h ↔ m ∈ c.hashList h
  failures : ∀ k ∈ c.failures, k ∈ c'.failures

/-- The other inodes are as before. -/
theorem Touched.nodeOk (ht : Touched n c c') {m : ℕ} {j : MemInode} (hne : m ≠ n)
    (hok : c.NodeOk m j) (hserial : j.serial < c'.nextSerial) (halive : j.serial ∉ c'.killed) :
    c'.NodeOk m j := by
  refine ⟨?_, hok.opens, hok.nlinks, hserial, halive, ?_, ?_⟩
  · rw [ht.held m hne]
    exact hok.refs
  · rw [ht.killing m hne, ht.reclaiming m hne]
    rcases hok.phase with hlinked | hgone
    · exact Or.inl ⟨(ht.linked m hne _).mpr hlinked.1, hlinked.2⟩
    · exact Or.inr ⟨fun h hmem => hgone.1 h ((ht.linked m hne h).mp hmem), hgone.2⟩
  · rw [ht.killing m hne, ht.reclaiming m hne]
    exact fun h1 h2 h3 => ht.failures _ (hok.outstanding h1 h2 h3)

/-- A step on an inode in memory that neither links it nor kills it. -/
theorem Inv.touch (hi : Inv c) (ht : Touched n c c') (hn : c.inode n = some i)
    (hn' : c'.inode n = some i') (hino : i'.ino = i.ino) (hserial : i'.serial = i.serial)
    (hhash : ∀ h, c'.hashList h = c.hashList h ∨ c'.hashList h = (c.hashList h).erase n)
    (hnext : c'.nextSerial = c.nextSerial) (hkilled : c'.killed = c.killed) (hok : c'.NodeOk n i') :
    Inv c' := by
  have hsub : ∀ h, ∀ m ∈ c'.hashList h, m ∈ c.hashList h := by
    intro h m hmem
    rcases hhash h with heq | heq
    · exact heq ▸ hmem
    · exact List.mem_of_mem_erase (heq ▸ hmem)
  have hback : ∀ m j, c'.inode m = some j → ∃ j₀, c.inode m = some j₀ ∧ j.ino = j₀.ino ∧
      j.serial = j₀.serial := by
    intro m j hj
    by_cases hm : m = n
    · subst hm
      rw [hn'] at hj
      obtain rfl := Option.some.inj hj
      exact ⟨i, hn, hino, hserial⟩
    · exact ⟨j, (ht.inode m hm) ▸ hj, rfl, rfl⟩
  constructor
  case live =>
    intro m j hj
    by_cases hm : m = n
    · subst hm
      rw [hn'] at hj
      exact Option.some.inj hj ▸ hok
    · rw [ht.inode m hm] at hj
      have hold := hi.live m j hj
      exact ht.nodeOk hm hold (hnext ▸ hold.serial) (hkilled ▸ hold.alive)
  case dead =>
    intro m hm
    have hne : m ≠ n := by
      intro heq
      rw [heq, hn'] at hm
      exact absurd hm (by simp)
    rw [ht.held m hne, ht.reclaiming m hne, ht.killing m hne]
    obtain ⟨h1, h2, h3, h4⟩ := hi.dead m ((ht.inode m hne) ▸ hm)
    exact ⟨h1, h2, h3, fun h hmem => h4 h (hsub h m hmem)⟩
  case bucket =>
    intro h m hmem j hj
    obtain ⟨j₀, hj₀, hij, -⟩ := hback m j hj
    rw [hij]
    exact hi.bucket h m (hsub h m hmem) j₀ hj₀
  case nodup =>
    intro h
    rcases hhash h with heq | heq
    · exact heq ▸ hi.nodup h
    · exact heq ▸ (hi.nodup h).erase n
  case unique =>
    intro h m hm m' hm' j j' hj hj' hjj
    obtain ⟨j₀, hj₀, hij, -⟩ := hback m j hj
    obtain ⟨j₁, hj₁, hij', -⟩ := hback m' j' hj'
    exact hi.unique h m (hsub h m hm) m' (hsub h m' hm') j₀ j₁ hj₀ hj₁ (by rw [← hij, ← hij', hjj])
  case serials =>
    intro m m' j j' hj hj' hjj
    obtain ⟨j₀, hj₀, -, hij⟩ := hback m j hj
    obtain ⟨j₁, hj₁, -, hij'⟩ := hback m' j' hj'
    exact hi.serials m m' j₀ j₁ hj₀ hj₁ (by rw [← hij, ← hij', hjj])
  case killed => exact hkilled ▸ hi.killed
  case old => exact hkilled ▸ hnext ▸ hi.old
  case all =>
    intro k hk
    rw [hnext] at hk
    rw [hkilled]
    rcases hi.all k hk with hdead | ⟨m, j, hj, hjk⟩
    · exact Or.inl hdead
    · right
      by_cases hm : m = n
      · subst hm
        rw [hn] at hj
        obtain rfl := Option.some.inj hj
        exact ⟨m, i', hn', hserial.trans hjk⟩
      · exact ⟨m, j, (ht.inode m hm).trans hj, hjk⟩

/-! One lemma for each operation. -/

/-- The search ends at the inode with the number, or shows that there is none. -/
theorem searchList_spec {ino : ℕ} {list : List ℕ} (hlive : ∀ n ∈ list, ∃ i, c.inode n = some i) :
    ∃ found, c.searchList ino list = some found ∧
      (∀ n, found = some n → n ∈ list ∧ ∃ i, c.inode n = some i ∧ i.ino = ino) ∧
      (found = none → ∀ n ∈ list, ∀ i, c.inode n = some i → i.ino ≠ ino) := by
  induction list with
  | nil => exact ⟨none, rfl, by simp, by simp⟩
  | cons n rest ih =>
    obtain ⟨i, hn⟩ := hlive n List.mem_cons_self
    by_cases hino : i.ino = ino
    · refine ⟨some n, ?_, ?_, by simp⟩
      · simp only [searchList, hn, Option.bind_some, hino, if_true]
      · intro m hm
        obtain rfl := Option.some.inj hm
        exact ⟨List.mem_cons_self, i, hn, hino⟩
    · obtain ⟨found, heq, hsome, hnone⟩ := ih (fun m hm => hlive m (List.mem_cons_of_mem n hm))
      refine ⟨found, ?_, ?_, ?_⟩
      · simp only [searchList, hn, Option.bind_some, hino, if_false, heq]
      · intro m hm
        obtain ⟨hmem, hrest⟩ := hsome m hm
        exact ⟨List.mem_cons_of_mem n hmem, hrest⟩
      · intro hfound m hm j hj
        rcases List.mem_cons.mp hm with rfl | hm
        · rw [hn] at hj
          obtain rfl := Option.some.inj hj
          exact hino
        · exact hnone hfound m hm j hj

/-- A new reference, where the reclaim counts are set right for it. -/
theorem Inv.refInc (hi : Inv c) (hn : c.inode n = some i) (p r : ℕ)
    (hr : r = tally c.reclaiming n + 1) (hlinked : n ∈ c.hashList (sinHashfn i.ino))
    (hkilling : tally c.killing n = 0) : Inv (c.refInc p n { i with reclaimCount := r }) := by
  have hok := hi.live n i hn
  refine hi.touch ?_ hn (Function.update_self ..) rfl rfl (fun h => Or.inl rfl) rfl rfl ?_
  · refine ⟨fun m hm => Function.update_of_ne hm _ _, ?_, fun _ _ => rfl, fun _ _ => rfl,
      fun _ _ _ => Iff.rfl, fun _ h => h⟩
    intro m hm
    have hne : n ≠ m := fun heq => hm heq.symm
    simp only [InodeCache.refInc, tally_cons, hne, if_false, Nat.add_zero]
  · refine ⟨?_, hok.opens, hok.nlinks, hok.serial, hok.alive, Or.inl ⟨hlinked, hkilling, ?_⟩, ?_⟩
    · simp only [InodeCache.refInc, tally_cons, if_true, hok.refs]
    · show r = tally c.reclaiming n + if 0 < i.refCount + 1 then 1 else 0
      rw [if_pos (Nat.succ_pos _)]
      exact hr
    · intro hzero
      exact absurd hzero (Nat.succ_ne_zero _)

/-- The node that a process holds is linked. -/
theorem NodeOk.linked_of_refs (hok : c.NodeOk n i) (h : 0 < i.refCount) :
    n ∈ c.hashList (sinHashfn i.ino) ∧ tally c.killing n = 0 ∧
      i.reclaimCount = tally c.reclaiming n + 1 := by
  rcases hok.phase with ⟨h1, h2, h3⟩ | ⟨-, -, h0, -⟩
  · rw [if_pos h] at h3
    exact ⟨h1, h2, h3⟩
  · omega

theorem NodeOk.linked_of_mem (hok : c.NodeOk n i) {h : ℕ} (hmem : n ∈ c.hashList h) :
    tally c.killing n = 0 ∧
      i.reclaimCount = tally c.reclaiming n + (if 0 < i.refCount then 1 else 0) := by
  rcases hok.phase with ⟨-, h2, h3⟩ | ⟨hno, -⟩
  · exact ⟨h2, h3⟩
  · exact absurd hmem (hno h)

/-- A hit in the hash list, also one that revives an inode without references. -/
theorem Inv.hit (hi : Inv c) (hn : c.inode n = some i) (p : ℕ)
    (hlinked : n ∈ c.hashList (sinHashfn i.ino)) : Inv (c.hit p n i) := by
  have hok := hi.live n i hn
  obtain ⟨hkilling, hcount⟩ := hok.linked_of_mem hlinked
  unfold InodeCache.hit
  by_cases hzero : i.refCount + 1 = 1
  · rw [if_pos hzero]
    apply hi.refInc hn p _ _ hlinked hkilling
    rw [hcount, if_neg (by omega), Nat.add_zero]
  · rw [if_neg hzero]
    apply hi.refInc hn p i.reclaimCount _ hlinked hkilling
    rw [hcount, if_pos (by omega)]

/-- A new inode, where the search found none. -/
theorem Inv.create (hi : Inv c) (p ino nlinks : ℕ) (hn : c.inode n = none) (hlinks : nlinks ≠ 0)
    (hnone : ∀ m ∈ c.hashList (sinHashfn ino), ∀ j, c.inode m = some j → j.ino ≠ ino) :
    Inv (c.create p ino n nlinks) := by
  obtain ⟨hheld, hrec, hkill, hfree⟩ := hi.dead n hn
  have hnew : (c.create p ino n nlinks).inode n = some (c.newInode ino nlinks) :=
    Function.update_self ..
  have hold : ∀ m, m ≠ n → (c.create p ino n nlinks).inode m = c.inode m :=
    fun m hm => Function.update_of_ne hm _ _
  have hmem : ∀ h m, m ∈ (c.create p ino n nlinks).hashList h ↔
      (m = n ∧ h = sinHashfn ino) ∨ m ∈ c.hashList h := by
    intro h m
    by_cases hh : h = sinHashfn ino
    · subst hh
      simp [InodeCache.create]
    · simp [InodeCache.create, hh]
  have hfresh : ∀ k ∈ c.killed, k ≠ c.nextSerial := by
    intro k hk
    have := hi.old k hk
    omega
  have htouched : Touched n c (c.create p ino n nlinks) := by
    refine ⟨hold, ?_, fun _ _ => rfl, fun _ _ => rfl, ?_, fun _ h => h⟩
    · intro m hm
      have hne : n ≠ m := fun heq => hm heq.symm
      simp only [InodeCache.create, tally_cons, hne, if_false, Nat.add_zero]
    · intro m hm h
      simp only [hmem, hm, false_and, false_or]
  constructor
  case live =>
    intro m j hj
    by_cases hm : m = n
    · subst hm
      rw [hnew] at hj
      obtain rfl := Option.some.inj hj
      refine ⟨?_, rfl, hlinks, Nat.lt_succ_self _, fun hmem => hfresh _ hmem rfl, Or.inl ⟨?_, hkill, ?_⟩, ?_⟩
      · simp only [InodeCache.create, tally_cons, hheld, if_true]
        rfl
      · exact (hmem _ _).mpr (Or.inl ⟨rfl, rfl⟩)
      · show 1 = tally c.reclaiming m + 1
        rw [hrec]
      · intro hzero
        exact absurd hzero (Nat.succ_ne_zero 0)
    · rw [hold m hm] at hj
      have hok := hi.live m j hj
      exact htouched.nodeOk hm hok (Nat.lt_succ_of_lt hok.serial) hok.alive
  case dead =>
    intro m hm
    have hne : m ≠ n := by
      intro heq
      rw [heq, hnew] at hm
      exact absurd hm (by simp)
    rw [htouched.held m hne]
    obtain ⟨h1, h2, h3, h4⟩ := hi.dead m ((hold m hne) ▸ hm)
    exact ⟨h1, h2, h3, fun h hx => h4 h ((htouched.linked m hne h).mp hx)⟩
  case bucket =>
    intro h m hm j hj
    by_cases hmn : m = n
    · subst hmn
      rw [hnew] at hj
      obtain rfl := Option.some.inj hj
      rcases (hmem h m).mp hm with ⟨-, rfl⟩ | hx
      · rfl
      · exact absurd hx (hfree h)
    · exact hi.bucket h m ((htouched.linked m hmn h).mp hm) j ((hold m hmn) ▸ hj)
  case nodup =>
    intro h
    by_cases hh : h = sinHashfn ino
    · subst hh
      simp only [InodeCache.create, Function.update_self]
      exact List.nodup_cons.mpr ⟨hfree _, hi.nodup _⟩
    · simp only [InodeCache.create, Function.update_of_ne hh]
      exact hi.nodup h
  case unique =>
    intro h m hm m' hm' j j' hj hj' hjj
    by_cases hmn : m = n
    · by_cases hmn' : m' = n
      · rw [hmn, hmn']
      · exfalso
        rw [hmn, hnew] at hj
        obtain rfl := Option.some.inj hj
        rw [hold m' hmn'] at hj'
        have hx := (htouched.linked m' hmn' h).mp hm'
        have hb := hi.bucket h m' hx j' hj'
        rw [← hjj] at hb
        exact hnone m' (hb.symm ▸ hx) j' hj' hjj.symm
    · by_cases hmn' : m' = n
      · exfalso
        rw [hmn', hnew] at hj'
        obtain rfl := Option.some.inj hj'
        rw [hold m hmn] at hj
        have hx := (htouched.linked m hmn h).mp hm
        have hb := hi.bucket h m hx j hj
        rw [hjj] at hb
        exact hnone m (hb.symm ▸ hx) j hj hjj
      · rw [hold m hmn] at hj
        rw [hold m' hmn'] at hj'
        exact hi.unique h m ((htouched.linked m hmn h).mp hm) m' ((htouched.linked m' hmn' h).mp hm')
          j j' hj hj' hjj
  case serials =>
    intro m m' j j' hj hj' hjj
    by_cases hmn : m = n
    · by_cases hmn' : m' = n
      · rw [hmn, hmn']
      · exfalso
        rw [hmn, hnew] at hj
        obtain rfl := Option.some.inj hj
        rw [hold m' hmn'] at hj'
        have := (hi.live m' j' hj').serial
        rw [← hjj] at this
        exact Nat.lt_irrefl _ this
    · by_cases hmn' : m' = n
      · exfalso
        rw [hmn', hnew] at hj'
        obtain rfl := Option.some.inj hj'
        rw [hold m hmn] at hj
        have := (hi.live m j hj).serial
        rw [hjj] at this
        exact Nat.lt_irrefl _ this
      · rw [hold m hmn] at hj
        rw [hold m' hmn'] at hj'
        exact hi.serials m m' j j' hj hj' hjj
  case killed => exact hi.killed
  case old => exact fun k hk => Nat.lt_succ_of_lt (hi.old k hk)
  case all =>
    intro k hk
    rcases Nat.lt_succ_iff_lt_or_eq.mp hk with hlt | heq
    · rcases hi.all k hlt with hdead | ⟨m, j, hj, hjk⟩
      · exact Or.inl hdead
      · right
        have hmn : m ≠ n := by
          intro heq
          rw [heq, hn] at hj
          exact absurd hj (by simp)
        exact ⟨m, j, (hold m hmn).trans hj, hjk⟩
    · exact Or.inr ⟨n, _, hnew, heq.symm⟩

/-- A load always has a result. -/
theorem Inv.load (hi : Inv c) (p ino : ℕ) {result : LoadResult}
    (hallowed : c.Allowed (.load p ino result)) :
    ∃ c', c.sfsLoadInode p ino result = some c' ∧ Inv c' := by
  obtain ⟨found, heq, hsome, hnone⟩ := @searchList_spec c ino (c.hashList (sinHashfn ino))
    (fun m hm => hi.some_of_linked hm)
  unfold sfsLoadInode
  rw [heq, Option.bind_some]
  cases found with
  | some n =>
    obtain ⟨hmem, i, hn, hino⟩ := hsome n rfl
    refine ⟨c.hit p n i, ?_, hi.hit hn p (hino.symm ▸ hmem)⟩
    simp only [hn, Option.map_some]
  | none =>
    cases result with
    | noMem => exact ⟨c, rfl, hi⟩
    | readError => exact ⟨c, rfl, hi⟩
    | created n nlinks =>
      refine ⟨_, if_pos hallowed.2, hi.create p ino nlinks hallowed.1 hallowed.2 ?_⟩
      exact hnone rfl

/-- A reference is given back; the last one starts a reclaim. -/
theorem Inv.refDec (hi : Inv c) {p : ℕ} (hn : c.inode n = some i) (hheld : (p, n) ∈ c.held) :
    ∃ c', c.inodeRefDec p n i = some c' ∧ Inv c' := by
  have hok := hi.live n i hn
  have hpos : 0 < i.refCount := hok.refs ▸ tally_pos_of_mem hheld
  obtain ⟨hlinked, hkilling, hcount⟩ := hok.linked_of_refs hpos
  have herase := tally_erase hheld n
  rw [if_pos rfl, ← hok.refs] at herase
  have htally : ∀ m, m ≠ n → tally (c.held.erase (p, n)) m = tally c.held m :=
    fun m hm => tally_erase_of_ne hheld (Ne.symm hm)
  unfold inodeRefDec
  rw [if_pos hpos]
  by_cases hzero : i.refCount - 1 = 0
  · refine ⟨_, if_pos hzero, ?_⟩
    refine hi.touch ?_ hn (Function.update_self ..) rfl rfl (fun h => Or.inl rfl) rfl rfl ?_
    · refine ⟨fun m hm => Function.update_of_ne hm _ _, htally, ?_, fun _ _ => rfl,
        fun _ _ _ => Iff.rfl, fun _ h => h⟩
      intro m hm
      have hne : n ≠ m := fun heq => hm heq.symm
      simp only [tally_cons, hne, if_false, Nat.add_zero]
      rfl
    · have hmore : tally ((p, n) ::ₘ c.reclaiming) n = tally c.reclaiming n + 1 := by
        rw [tally_cons, if_pos rfl]
      refine ⟨?_, hok.opens, hok.nlinks, hok.serial, hok.alive, Or.inl ⟨hlinked, hkilling, ?_⟩, ?_⟩
      · show i.refCount - 1 = tally (c.held.erase (p, n)) n
        omega
      · show i.reclaimCount = tally ((p, n) ::ₘ c.reclaiming) n + if 0 < i.refCount - 1 then 1 else 0
        rw [hmore, hzero, hcount]
        simp
      · intro _ hnone _
        have hbad : tally ((p, n) ::ₘ c.reclaiming) n = 0 := hnone
        omega
  · refine ⟨_, if_neg hzero, ?_⟩
    refine hi.touch ?_ hn (Function.update_self ..) rfl rfl (fun h => Or.inl rfl) rfl rfl ?_
    · exact ⟨fun m hm => Function.update_of_ne hm _ _, htally, fun _ _ => rfl, fun _ _ => rfl,
        fun _ _ _ => Iff.rfl, fun _ h => h⟩
    · refine ⟨?_, hok.opens, hok.nlinks, hok.serial, hok.alive, Or.inl ⟨hlinked, hkilling, ?_⟩, ?_⟩
      · show i.refCount - 1 = tally (c.held.erase (p, n)) n
        omega
      · show i.reclaimCount = tally c.reclaiming n + if 0 < i.refCount - 1 then 1 else 0
        rw [if_pos (by omega)]
        exact hcount
      · intro hbad
        exact absurd hbad hzero

/-- What the last reclaim finds: no references and no other reclaim under way. -/
structure Last (c : InodeCache) (p n : ℕ) (i i' : MemInode) : Prop where
  mem : (p, n) ∈ c.reclaiming
  others : tally (c.reclaiming.erase (p, n)) n = 0
  killing : tally c.killing n = 0
  linked : n ∈ c.hashList (sinHashfn i.ino)
  refs : i'.refCount = i.refCount
  opens : i'.openCount = i.openCount
  nlinks : i'.nlinks = i.nlinks
  ino : i'.ino = i.ino
  serial : i'.serial = i.serial
  zero : i'.refCount = 0
  count : i'.reclaimCount = 0

/-- The reclaim gives up with a failed write-back. -/
theorem Inv.fail (hi : Inv c) {p : ℕ} (hn : c.inode n = some i) (hl : c.Last p n i i') :
    Inv (fail { c with reclaiming := c.reclaiming.erase (p, n) } n i') := by
  have hok := hi.live n i hn
  refine hi.touch ?_ hn (Function.update_self ..) hl.ino hl.serial (fun h => Or.inl rfl) rfl rfl ?_
  · exact ⟨fun m hm => Function.update_of_ne hm _ _, fun _ _ => rfl,
      fun m hm => tally_erase_of_ne hl.mem (Ne.symm hm), fun _ _ => rfl, fun _ _ _ => Iff.rfl,
      fun k hk => List.mem_cons_of_mem _ hk⟩
  · refine ⟨hl.refs.trans hok.refs, hl.opens.trans hok.opens, hl.nlinks ▸ hok.nlinks,
      hl.serial ▸ hok.serial, hl.serial ▸ hok.alive, Or.inl ⟨?_, hl.killing, ?_⟩, ?_⟩
    · rw [hl.ino]
      exact hl.linked
    · show i'.reclaimCount = tally (c.reclaiming.erase (p, n)) n + if 0 < i'.refCount then 1 else 0
      rw [hl.count, hl.others, hl.zero]
      rfl
    · exact fun _ _ _ => List.mem_cons_self

/-- The reclaim takes the inode out of the hash list. -/
theorem Inv.removeLinks (hi : Inv c) {p : ℕ} (hn : c.inode n = some i) (hl : c.Last p n i i') :
    Inv (removeLinks { c with reclaiming := c.reclaiming.erase (p, n) } p n i') := by
  have hok := hi.live n i hn
  have hone : tally ((p, n) ::ₘ c.killing) n = 1 := by
    rw [tally_cons, if_pos rfl, hl.killing]
  refine hi.touch ?_ hn (Function.update_self ..) hl.ino hl.serial (fun h => Or.inr rfl) rfl rfl ?_
  · refine ⟨fun m hm => Function.update_of_ne hm _ _, fun _ _ => rfl,
      fun m hm => tally_erase_of_ne hl.mem (Ne.symm hm), ?_, ?_, fun _ h => h⟩
    · intro m hm
      have hne : n ≠ m := fun heq => hm heq.symm
      simp only [InodeCache.removeLinks, tally_cons, hne, if_false, Nat.add_zero]
    · exact fun m hm h => List.mem_erase_of_ne hm
  · refine ⟨hl.refs.trans hok.refs, hl.opens.trans hok.opens, hl.nlinks ▸ hok.nlinks,
      hl.serial ▸ hok.serial, hl.serial ▸ hok.alive, Or.inr ⟨?_, hone, hl.zero, hl.others⟩, ?_⟩
    · intro h hmem
      exact (hi.nodup h).not_mem_erase hmem
    · intro _ _ hbad
      have hbad' : tally ((p, n) ::ₘ c.killing) n = 0 := hbad
      omega

/-- The critical section of a reclaim. -/
theorem Inv.reclaim (hi : Inv c) {p : ℕ} (hn : c.inode n = some i) (hmem : (p, n) ∈ c.reclaiming)
    (io : WriteBack) : ∃ c', c.sfsReclaim p n i io = some c' ∧ Inv c' := by
  have hok := hi.live n i hn
  have hpos := tally_pos_of_mem hmem
  have herase := tally_erase hmem n
  rw [if_pos rfl] at herase
  obtain ⟨hlinked, hkilling, hcount⟩ : n ∈ c.hashList (sinHashfn i.ino) ∧ tally c.killing n = 0 ∧
      i.reclaimCount = tally c.reclaiming n + (if 0 < i.refCount then 1 else 0) := by
    rcases hok.phase with hphase | ⟨-, -, -, hzero⟩
    · exact hphase
    · omega
  unfold sfsReclaim
  rw [if_pos (by omega)]
  by_cases hbusy : i.reclaimCount - 1 ≠ 0 ∨ i.refCount ≠ 0
  · refine ⟨_, if_pos hbusy, ?_⟩
    refine hi.touch ?_ hn (Function.update_self ..) rfl rfl (fun h => Or.inl rfl) rfl rfl ?_
    · exact ⟨fun m hm => Function.update_of_ne hm _ _, fun _ _ => rfl,
        fun m hm => tally_erase_of_ne hmem (Ne.symm hm), fun _ _ => rfl, fun _ _ _ => Iff.rfl,
        fun _ h => h⟩
    · refine ⟨hok.refs, hok.opens, hok.nlinks, hok.serial, hok.alive,
        Or.inl ⟨hlinked, hkilling, ?_⟩, ?_⟩
      · show i.reclaimCount - 1 =
          tally (c.reclaiming.erase (p, n)) n + if 0 < i.refCount then 1 else 0
        omega
      · intro hzero hnone _
        have hz : i.refCount = 0 := hzero
        have hno : tally (c.reclaiming.erase (p, n)) n = 0 := hnone
        rw [hz] at hcount
        simp only [Nat.lt_irrefl, if_false, Nat.add_zero] at hcount
        omega
  · have hzero : i.refCount = 0 := by omega
    rw [hzero] at hcount
    simp only [Nat.lt_irrefl, if_false, Nat.add_zero] at hcount
    have hcnt : i.reclaimCount - 1 = 0 := by omega
    have hlast : c.Last p n i { i with reclaimCount := i.reclaimCount - 1 } :=
      ⟨hmem, by omega, hkilling, hlinked, rfl, rfl, rfl, rfl, rfl, hzero, hcnt⟩
    refine ⟨_, (if_neg hbusy).trans (if_neg hok.nlinks), ?_⟩
    unfold writeBack
    by_cases hdirty : i.dirty = true
    · rw [if_pos hdirty]
      by_cases hio : io.fsync = true
      · rw [if_pos hio]
        exact hi.removeLinks hn ⟨hmem, hlast.others, hkilling, hlinked, rfl, rfl, rfl, rfl, rfl,
          hzero, hlast.count⟩
      · rw [if_neg hio]
        exact hi.fail hn hlast
    · rw [if_neg hdirty]
      exact hi.removeLinks hn hlast

/-- The inode is killed. -/
theorem Inv.kill (hi : Inv c) {p : ℕ} (hn : c.inode n = some i) (hmem : (p, n) ∈ c.killing) :
    i.refCount = 0 ∧ ∃ c', c.inodeKill p n i = some c' ∧ Inv c' := by
  have hok := hi.live n i hn
  have hpos := tally_pos_of_mem hmem
  obtain ⟨hfree, hone, hzero, hrec⟩ : (∀ h, n ∉ c.hashList h) ∧ tally c.killing n = 1 ∧
      i.refCount = 0 ∧ tally c.reclaiming n = 0 := by
    rcases hok.phase with ⟨-, hnone, -⟩ | hphase
    · omega
    · exact hphase
  have herase := tally_erase hmem n
  rw [if_pos rfl] at herase
  have hnokill : tally (c.killing.erase (p, n)) n = 0 := by omega
  refine ⟨hzero, _, if_pos ⟨hzero, hok.opens⟩, ?_⟩
  have hgone : Function.update c.inode n none n = none := Function.update_self ..
  have hold : ∀ m, m ≠ n → Function.update c.inode n none m = c.inode m :=
    fun m hm => Function.update_of_ne hm _ _
  have hback : ∀ m j, Function.update c.inode n none m = some j → m ≠ n ∧ c.inode m = some j := by
    intro m j hj
    by_cases hm : m = n
    · rw [hm, hgone] at hj
      exact absurd hj (by simp)
    · exact ⟨hm, (hold m hm) ▸ hj⟩
  have hlt : ∀ m, m ≠ n → tally (c.killing.erase (p, n)) m = tally c.killing m :=
    fun m hm => tally_erase_of_ne hmem (Ne.symm hm)
  constructor
  case live =>
    intro m j hj
    obtain ⟨hm, hj⟩ := hback m j hj
    have hokm := hi.live m j hj
    refine ⟨hokm.refs, hokm.opens, hokm.nlinks, hokm.serial, ?_, ?_, ?_⟩
    · intro hx
      rcases List.mem_cons.mp hx with heq | hx
      · exact hm (hi.serials m n j i hj hn heq)
      · exact hokm.alive hx
    · simp only [hlt m hm]
      exact hokm.phase
    · simp only [hlt m hm]
      exact hokm.outstanding
  case dead =>
    intro m hm
    by_cases hmn : m = n
    · subst hmn
      exact ⟨hok.refs.symm.trans hzero, hrec, hnokill, hfree⟩
    · have hm' : c.inode m = none := (hold m hmn) ▸ hm
      simp only [hlt m hmn]
      exact hi.dead m hm'
  case bucket => exact fun h m hm j hj => hi.bucket h m hm j (hback m j hj).2
  case nodup => exact hi.nodup
  case unique =>
    exact fun h m hm m' hm' j j' hj hj' hjj =>
      hi.unique h m hm m' hm' j j' (hback m j hj).2 (hback m' j' hj').2 hjj
  case serials =>
    exact fun m m' j j' hj hj' hjj => hi.serials m m' j j' (hback m j hj).2 (hback m' j' hj').2 hjj
  case killed => exact List.nodup_cons.mpr ⟨hok.alive, hi.killed⟩
  case old =>
    intro k hk
    rcases List.mem_cons.mp hk with rfl | hk
    · exact hok.serial
    · exact hi.old k hk
  case all =>
    intro k hk
    rcases hi.all k hk with hdead | ⟨m, j, hj, hjk⟩
    · exact Or.inl (List.mem_cons_of_mem _ hdead)
    · by_cases hmn : m = n
      · subst hmn
        rw [hn] at hj
        obtain rfl := Option.some.inj hj
        exact Or.inl (hjk ▸ List.mem_cons_self)
      · exact Or.inr ⟨m, j, (hold m hmn).trans hj, hjk⟩

/-- No allowed step fails an assertion or uses freed memory, and each keeps the invariant. -/
theorem Inv.step (hi : Inv c) {op : CacheOp} (h : c.Allowed op) :
    ∃ c', c.step op = some c' ∧ Inv c' := by
  cases op with
  | load p ino result => exact hi.load p ino h
  | refInc p n =>
    obtain ⟨i, hn⟩ := hi.some_of_pos (Nat.add_pos_left (Nat.add_pos_left (tally_pos_of_mem h) _) _)
    have hok := hi.live n i hn
    obtain ⟨hlinked, hkilling, hcount⟩ := hok.linked_of_refs (hok.refs ▸ tally_pos_of_mem h)
    refine ⟨c.refInc p n i, ?_, hi.refInc hn p i.reclaimCount hcount hlinked hkilling⟩
    simp only [InodeCache.step, hn, Option.map_some]
  | write p n =>
    obtain ⟨i, hn⟩ := hi.some_of_pos (Nat.add_pos_left (Nat.add_pos_left (tally_pos_of_mem h) _) _)
    have hok := hi.live n i hn
    refine ⟨c.setInode n { i with dirty := true }, ?_, ?_⟩
    · simp only [InodeCache.step, hn, Option.map_some]
    · refine hi.touch ?_ hn (Function.update_self ..) rfl rfl (fun h => Or.inl rfl) rfl rfl ?_
      · exact ⟨fun m hm => Function.update_of_ne hm _ _, fun _ _ => rfl, fun _ _ => rfl,
          fun _ _ => rfl, fun _ _ _ => Iff.rfl, fun _ h => h⟩
      · exact ⟨hok.refs, hok.opens, hok.nlinks, hok.serial, hok.alive, hok.phase, hok.outstanding⟩
  | refDec p n =>
    obtain ⟨i, hn⟩ := hi.some_of_pos (Nat.add_pos_left (Nat.add_pos_left (tally_pos_of_mem h) _) _)
    simp only [InodeCache.step, hn, Option.bind_some]
    exact hi.refDec hn h
  | reclaim p n io =>
    obtain ⟨i, hn⟩ := hi.some_of_pos (Nat.add_pos_left (Nat.add_pos_right _ (tally_pos_of_mem h)) _)
    simp only [InodeCache.step, hn, Option.bind_some]
    exact hi.reclaim hn h io
  | kill p n =>
    obtain ⟨i, hn⟩ := hi.some_of_pos (Nat.add_pos_right _ (tally_pos_of_mem h))
    simp only [InodeCache.step, hn, Option.bind_some]
    exact (hi.kill hn h).2

/-- Whatever the processes do, in any order: the run goes on, there is one inode in memory for
a number, an inode that is killed has no references, none is killed twice, and one that
nobody holds or works on any more is killed, unless a write-back of it has failed. -/
theorem reclaim_protocol {ops : List CacheOp} (h : RunMeets step Allowed empty ops) :
    ∃ c, runOps step empty ops = some c ∧
      (∀ a b n m i j, n ∈ c.hashList a → m ∈ c.hashList b → c.inode n = some i →
        c.inode m = some j → i.ino = j.ino → n = m) ∧
      (∀ a, (c.hashList a).Nodup) ∧
      (∀ p n, (p, n) ∈ c.held → ∃ i, c.inode n = some i ∧ 0 < i.refCount) ∧
      (∀ p n, c.Allowed (.kill p n) → ∃ i, c.inode n = some i ∧ i.refCount = 0 ∧
        i.serial ∉ c.killed ∧ ∀ q, (q, n) ∉ c.held) ∧
      c.killed.Nodup ∧
      ∀ k < c.nextSerial, k ∈ c.killed ∨ ∃ n i, c.inode n = some i ∧ i.serial = k ∧
        ((∃ q, (q, n) ∈ c.held) ∨ (∃ q, (q, n) ∈ c.reclaiming) ∨ (∃ q, (q, n) ∈ c.killing) ∨
          k ∈ c.failures) := by
  obtain ⟨c, hrun, hi⟩ := runOps_total (fun s op hs hc => Inv.step hs hc) inv_empty h
  refine ⟨c, hrun, ?_, hi.nodup, ?_, ?_, hi.killed, ?_⟩
  · intro a b n m i j hn hm hin hjm hij
    have ha := hi.bucket a n hn i hin
    have hb := hi.bucket b m hm j hjm
    rw [← hij, ha] at hb
    exact hi.unique a n hn m (hb.symm ▸ hm) i j hin hjm hij
  · intro p n hmem
    have hpos := tally_pos_of_mem hmem
    obtain ⟨i, hn⟩ := hi.some_of_pos (Nat.add_pos_left (Nat.add_pos_left hpos _) _)
    exact ⟨i, hn, (hi.live n i hn).refs ▸ hpos⟩
  · intro p n hmem
    obtain ⟨i, hn⟩ := hi.some_of_pos (Nat.add_pos_right _ (tally_pos_of_mem hmem))
    have hok := hi.live n i hn
    have hzero := (hi.kill hn hmem).1
    exact ⟨i, hn, hzero, hok.alive, notMem_of_tally (hok.refs.symm.trans hzero)⟩
  · intro k hk
    rcases hi.all k hk with hdead | ⟨n, i, hn, rfl⟩
    · exact Or.inl hdead
    · refine Or.inr ⟨n, i, hn, rfl, ?_⟩
      have hok := hi.live n i hn
      by_cases hheld : 0 < tally c.held n
      · exact Or.inl (tally_pos.mp hheld)
      by_cases hrec : 0 < tally c.reclaiming n
      · exact Or.inr (Or.inl (tally_pos.mp hrec))
      by_cases hkill : 0 < tally c.killing n
      · exact Or.inr (Or.inr (Or.inl (tally_pos.mp hkill)))
      · refine Or.inr (Or.inr (Or.inr (hok.outstanding ?_ (by omega) (by omega))))
        rw [hok.refs]
        omega

/-- Two processes share the inode 5; the second one finds it again between the last reference
of the first one and its reclaim. -/
def sharedOps : List CacheOp :=
  [.load 1 5 (.created 0 1), .refDec 1 0, .load 2 5 .noMem, .reclaim 1 0 ⟨none, true⟩, .write 2 0,
    .refDec 2 0, .reclaim 2 0 ⟨none, true⟩, .kill 2 0]

theorem reclaim_protocol_small : ∃ c, runOps step empty sharedOps = some c ∧ c.killed = [0] ∧
    c.killed.Nodup := by
  have hmeets : RunMeets step Allowed empty sharedOps := by
    refine RunMeets.cons (by decide) rfl ?_
    refine RunMeets.cons (by decide) rfl ?_
    refine RunMeets.cons (by decide) rfl ?_
    refine RunMeets.cons (by decide) rfl ?_
    refine RunMeets.cons (by decide) rfl ?_
    refine RunMeets.cons (by decide) rfl ?_
    refine RunMeets.cons (by decide) rfl ?_
    exact RunMeets.cons (by decide) rfl trivial
  obtain ⟨c, hrun, -, -, -, -, hnodup, -⟩ := reclaim_protocol hmeets
  have hkilled : (runOps step empty sharedOps).map killed = some [0] := rfl
  rw [hrun] at hkilled
  exact ⟨c, hrun, Option.some.inj hkilled, hnodup⟩

end Ucore.Fs.InodeCache
