import Ucore.Dou.BuddyRuns

/-!
When everything has been given back, the lists hold the blocks of the beginning again,
provided that the buddies were looked up only at orders where the other half of a block and
the page with the flipped address bit are the same.
-/
namespace Ucore.Dou.BuddyUsers

open Library Libs BuddyPmm BuddyNode

/-- The bit of the base page number is clear at every order in the list. -/
def Agree (base : ℕ) (os : List ℕ) : Prop := ∀ o ∈ os, base / 2 ^ o % 2 = 0

/-- Every block begins at a multiple of its size, counted from `base`. -/
def InPhase (base : ℕ) (own : List (ℕ × ℕ)) (free : ℕ → List ℕ) : Prop :=
  ∀ e ∈ own ++ onLists free, base ≤ e.1 ∧ 2 ^ e.2 ∣ e.1 - base

/-- The other half of the block that a block of order `o` was cut from. -/
def otherHalf (base p o : ℕ) : ℕ := base + ((p - base) ^^^ 2 ^ o)

/-- No block is on a list together with its other half. -/
def NoPair (base : ℕ) (free : ℕ → List ℕ) : Prop :=
  ∀ o < maxOrder - 1, ∀ p ∈ free o, otherHalf base p o ∉ free o

section halves

variable {base p q o : ℕ}

theorem otherHalf_twice (hp : base ≤ p) : otherHalf base (otherHalf base p o) o = p := by
  unfold otherHalf
  rw [Nat.add_sub_cancel_left, xor_two_pow_twice]
  omega

/-- The flipped address bit leads to the other half where the bit of the base is clear. -/
theorem buddy_otherHalf (hp : base ≤ p) (hdvd : 2 ^ o ∣ p - base) (hagree : base / 2 ^ o % 2 = 0) :
    p ^^^ 2 ^ o = otherHalf base p o := by
  obtain ⟨c, hc⟩ := hdvd
  have hpos := Nat.two_pow_pos o
  have hoff : (p - base) / 2 ^ o = c := by
    rw [hc, Nat.mul_div_cancel_left c hpos]
  have hpage : p / 2 ^ o = base / 2 ^ o + c := by
    rw [show p = base + 2 ^ o * c by omega, Nat.add_mul_div_left _ _ hpos]
  unfold otherHalf
  rcases Nat.mod_two_eq_zero_or_one c with heven | hodd
  · rw [xor_two_pow_of_clear (p := p) (by rw [hpage]; omega),
      xor_two_pow_of_clear (p := p - base) (by rw [hoff]; exact heven)]
    omega
  · have h1 := xor_two_pow_of_set (p := p) (o := o) (by rw [hpage]; omega)
    have h2 := xor_two_pow_of_set (p := p - base) (o := o) (by rw [hoff]; exact hodd)
    omega

/-- The two halves: a multiple of the double size, and the page half a block behind it. -/
theorem halves (hp : base ≤ p) (hdvd : 2 ^ o ∣ p - base) :
    ∃ m, base ≤ m ∧ 2 ^ (o + 1) ∣ m - base ∧
      ((p = m ∧ otherHalf base p o = m + 2 ^ o) ∨ (p = m + 2 ^ o ∧ otherHalf base p o = m)) := by
  obtain ⟨c, hc⟩ := hdvd
  have hpos := Nat.two_pow_pos o
  have hoff : (p - base) / 2 ^ o = c := by
    rw [hc, Nat.mul_div_cancel_left c hpos]
  unfold otherHalf
  rcases Nat.even_or_odd' c with ⟨k, hk | hk⟩
  · have h1 := xor_two_pow_of_clear (p := p - base) (o := o) (by rw [hoff, hk]; omega)
    refine ⟨p, hp, ⟨k, ?_⟩, Or.inl ⟨rfl, by omega⟩⟩
    rw [hc, hk, Nat.pow_succ, Nat.mul_assoc]
  · have h1 := xor_two_pow_of_set (p := p - base) (o := o) (by rw [hoff, hk]; omega)
    have hmul : 2 ^ o * (2 * k + 1) = 2 ^ (o + 1) * k + 2 ^ o := by
      rw [Nat.pow_succ]
      ring
    refine ⟨p - 2 ^ o, by omega, ⟨k, ?_⟩, Or.inr ⟨by omega, by omega⟩⟩
    rw [hk, hmul] at hc
    omega

end halves

variable {base n p o : ℕ} {free free' : ℕ → List ℕ} {own own' : List (ℕ × ℕ)}

theorem InPhase.of_perm {bs : List (ℕ × ℕ)} (h : InPhase base own free)
    (hp : (own ++ onLists free).Perm bs) : ∀ e ∈ bs, base ≤ e.1 ∧ 2 ^ e.2 ∣ e.1 - base :=
  fun e he => h e (hp.mem_iff.mpr he)

/-- A block goes to its list. -/
theorem InPhase.push (h : InPhase base ((p, o) :: own) free) (ho : o < maxOrder) :
    InPhase base own (Function.update free o (p :: free o)) :=
  h.of_perm (((onLists_push ho).append_left own).trans List.perm_middle).symm

/-- A block leaves its list. -/
theorem InPhase.pull {xs ys : List ℕ} (h : InPhase base own free) (ho : o < maxOrder)
    (hfree : free o = xs ++ p :: ys) :
    InPhase base ((p, o) :: own) (Function.update free o (xs ++ ys)) :=
  h.of_perm (((onLists_remove ho hfree).append_left own).trans List.perm_middle)

theorem NoPair.pull {xs ys : List ℕ} (h : NoPair base free) (hfree : free o = xs ++ p :: ys) :
    NoPair base (Function.update free o (xs ++ ys)) := by
  intro k hk q hq hbad
  exact h k hk q (mem_of_update_remove hfree hq) (mem_of_update_remove hfree hbad)

/-- A block whose other half is on no list goes to its list. -/
theorem NoPair.push (h : NoPair base free) (hp : base ≤ p)
    (hother : o < maxOrder - 1 → otherHalf base p o ∉ free o)
    (hself : otherHalf base p o ≠ p) (hphase : ∀ q ∈ free o, base ≤ q) :
    NoPair base (Function.update free o (p :: free o)) := by
  intro k hk q hq hbad
  rcases mem_update_push.mp hq with ⟨rfl, rfl⟩ | hold
  · rcases mem_update_push.mp hbad with ⟨hsame, -⟩ | hbad
    · exact hself hsame
    · exact hother hk hbad
  · rcases mem_update_push.mp hbad with ⟨hsame, rfl⟩ | hbad
    · refine hother hk ?_
      rw [← hsame, otherHalf_twice (hphase q hold)]
      exact hold
    · exact h k hk q hold hbad

theorem otherHalf_ne (hp : base ≤ p) (hdvd : 2 ^ o ∣ p - base) : otherHalf base p o ≠ p := by
  obtain ⟨m, -, -, hm⟩ := halves hp hdvd
  have hpos := Nat.two_pow_pos o
  omega

theorem InPhase.of_list (h : InPhase base own free) (ho : o < maxOrder) (hp : p ∈ free o) :
    base ≤ p ∧ 2 ^ o ∣ p - base :=
  h (p, o) (List.mem_append_right _ (mem_onLists.mpr ⟨ho, hp⟩))

/-- Joining keeps the phase, and leaves no pair behind. -/
theorem merged_keeps {e : ℕ × ℕ} {os : List ℕ} (h : Merged free e os free')
    (hagree : Agree base os) (hphase : InPhase base (e :: own) free) (hpair : NoPair base free) :
    InPhase base own free' ∧ NoPair base free' := by
  induction h with
  | last free p =>
    have hmax : maxOrder - 1 < maxOrder := by
      unfold maxOrder
      omega
    obtain ⟨hp, hdvd⟩ := hphase _ List.mem_cons_self
    refine ⟨hphase.push hmax, hpair.push hp ?_ (otherHalf_ne hp hdvd) ?_⟩
    · exact fun hbad => absurd hbad (Nat.lt_irrefl _)
    · intro q hq
      exact (hphase.of_list hmax hq).1
  | @stop free p o ho hq =>
    have hmax : o < maxOrder := by omega
    obtain ⟨hp, hdvd⟩ := hphase _ List.mem_cons_self
    have hbuddy := buddy_otherHalf hp hdvd (hagree o (List.mem_singleton_self o))
    refine ⟨hphase.push hmax, hpair.push hp ?_ (otherHalf_ne hp hdvd) ?_⟩
    · intro _
      rw [← hbuddy]
      exact hq
    · intro q hq
      exact (hphase.of_list hmax hq).1
  | @join free free' p o xs ys os ho hfree hrest ih =>
    have hmax : o < maxOrder := by omega
    obtain ⟨hp, hdvd⟩ := hphase _ List.mem_cons_self
    have hbuddy := buddy_otherHalf hp hdvd (hagree o List.mem_cons_self)
    obtain ⟨m, hm, hmdvd, hsides⟩ := halves hp hdvd
    have hmin : min p (p ^^^ 2 ^ o) = m := by
      rw [hbuddy]
      have hpos := Nat.two_pow_pos o
      omega
    refine ih (fun k hk => hagree k (List.mem_cons_of_mem o hk)) ?_ (hpair.pull hfree)
    intro e he
    rcases List.mem_cons.mp he with rfl | he
    · rw [hmin]
      exact ⟨hm, hmdvd⟩
    · refine (hphase.pull hmax hfree) e ?_
      exact List.mem_cons_of_mem _ (List.mem_cons_of_mem _ he)

/-- Cutting keeps the phase, and the block in hand is the other half of what goes to a list. -/
theorem cut_keeps {order c : ℕ} (h : Cut p order c free free') (hc : c ≤ maxOrder)
    (hphase : InPhase base ((p, c) :: own) free) (hpair : NoPair base free)
    (hhand : ∀ k < maxOrder, p ∉ free k) :
    InPhase base ((p, order) :: own) free' ∧ NoPair base free' := by
  induction h with
  | done free => exact ⟨hphase, hpair⟩
  | @half free free' c hle hrest ih =>
    obtain ⟨hp, hdvd⟩ := hphase _ List.mem_cons_self
    simp only at hp hdvd
    have hpos := Nat.two_pow_pos c
    have hhalf : 2 ^ c ∣ p - base := (Nat.pow_dvd_pow 2 (Nat.le_succ c)).trans hdvd
    have hsecond : 2 ^ c ∣ p + 2 ^ c - base := by
      rw [show p + 2 ^ c - base = p - base + 2 ^ c by omega]
      exact Nat.dvd_add hhalf (Nat.dvd_refl _)
    have hother : otherHalf base (p + 2 ^ c) c = p := by
      obtain ⟨k, hk⟩ := hdvd
      have hset : (p - base + 2 ^ c) / 2 ^ c % 2 = 1 := by
        rw [hk, Nat.pow_succ, Nat.mul_assoc, Nat.add_div_right _ hpos,
          Nat.mul_div_cancel_left _ hpos]
        omega
      have hx := xor_two_pow_of_set hset
      unfold otherHalf
      rw [show p + 2 ^ c - base = p - base + 2 ^ c by omega]
      omega
    have hcut : InPhase base ((p + 2 ^ c, c) :: (p, c) :: own) free := by
      intro e he
      rcases List.mem_cons.mp he with rfl | he
      · exact ⟨Nat.le_add_right_of_le hp, hsecond⟩
      · rcases List.mem_cons.mp he with rfl | he
        · exact ⟨hp, hhalf⟩
        · exact hphase e (List.mem_cons_of_mem _ he)
    refine ih (by omega) (hcut.push hc) ?_ ?_
    · refine hpair.push (by omega) ?_ ?_ ?_
      · intro _
        rw [hother]
        exact hhand c hc
      · rw [hother]
        omega
      · intro q hq
        exact (hphase.of_list hc hq).1
    · intro k hk hbad
      rcases mem_update_push.mp hbad with ⟨heq, -⟩ | hbad
      · omega
      · exact hhand k hk hbad

/-- One request. -/
theorem Sound.keeps {h : BuddyUsers} {os : List ℕ} (hs : Sound base n h free)
    (hmoved : Moved free h.own os free' own') (hagree : Agree base os)
    (hphase : InPhase base h.own free) (hpair : NoPair base free) :
    InPhase base own' free' ∧ NoPair base free' := by
  cases hmoved with
  | refuse => exact ⟨hphase, hpair⟩
  | @take _ _ p o cur ys hcur hfree hcut =>
    have hfree' : free cur = [] ++ p :: ys := hfree
    exact cut_keeps hcut (by omega) (hphase.pull hcur hfree') (hpair.pull hfree')
      (hs.shape.take hcur hfree').hand_unlisted
  | give hperm ho hmerged =>
    exact merged_keeps hmerged hagree
      (hphase.of_perm (hperm.append_right _)) hpair

/-- The blocks that are on lists and hold a page. -/
theorem exists_listed (ht : Tiling (Managed base n) ((onLists free).map asBlock)) {q : ℕ}
    (hq : Managed base n q) : ∃ o < maxOrder, ∃ p ∈ free o, q ∈ asBlock (p, o) := by
  obtain ⟨b, hb, hmem⟩ := (ht.cover q).mp hq
  obtain ⟨e, he, rfl⟩ := List.mem_map.mp hb
  obtain ⟨ho, hp⟩ := mem_onLists.mp he
  exact ⟨e.2, ho, e.1, hp, hmem⟩

/-- The last page of a listed block is a managed page. -/
theorem listed_end (ht : Tiling (Managed base n) ((onLists free).map asBlock))
    (ho : o < maxOrder) (hp : p ∈ free o) : p + 2 ^ o ≤ base + n := by
  have hmem : asBlock (p, o) ∈ (onLists free).map asBlock :=
    List.mem_map_of_mem (mem_onLists.mpr ⟨ho, hp⟩)
  exact ht.le_of_bound (fun q hq => hq.2) hmem

/-- When all pages are on lists and no pair is left, every block below the last order is the
first half of one that does not fit. -/
theorem laid_of_noPair (ht : Tiling (Managed base n) ((onLists free).map asBlock))
    (hphase : InPhase base [] free) (hpair : NoPair base free) : Laid base n free := by
  have hsmall : ∀ o < maxOrder - 1, ∀ p ∈ free o,
      2 ^ (o + 1) ∣ p - base ∧ base + n < p + 2 ^ (o + 1) := by
    intro o
    induction o using Nat.strong_induction_on with
    | _ o ih =>
      intro ho p hp
      have hmax : o < maxOrder := by omega
      obtain ⟨hbase, hdvd⟩ := hphase.of_list hmax hp
      obtain ⟨m, hm, hmdvd, hsides⟩ := halves hbase hdvd
      have hpos := Nat.two_pow_pos o
      have hdouble := Shape.two_pow_succ' o
      have hend := listed_end ht hmax hp
      have hnofit : base + n < m + 2 ^ (o + 1) := by
        by_contra hfit
        -- the other half is managed: it is in a larger block, a listed half or a smaller block
        obtain ⟨q, hq⟩ : ∃ q, q = otherHalf base p o := ⟨_, rfl⟩
        obtain ⟨o', ho', y, hy, hmem⟩ := exists_listed ht (q := q) ⟨by omega, by omega⟩
        obtain ⟨hybase, hydvd⟩ := hphase.of_list ho' hy
        simp only [asBlock, Block.mem_def] at hmem
        have hqdvd : 2 ^ o ∣ q - base := by
          have hm' := (Nat.pow_dvd_pow 2 (Nat.le_succ o)).trans hmdvd
          rcases hsides with ⟨-, h2⟩ | ⟨-, h2⟩
          · rw [hq, h2, show m + 2 ^ o - base = m - base + 2 ^ o by omega]
            exact Nat.dvd_add hm' (Nat.dvd_refl _)
          · rw [hq, h2]
            exact hm'
        rcases Nat.lt_trichotomy o' o with hlt | rfl | hgt
        · have heq : y = q := by
            have hoff := aligned_eq hydvd ((Nat.pow_dvd_pow 2 hlt.le).trans hqdvd)
              (by omega) (by omega)
            omega
          obtain ⟨-, hbound⟩ := ih o' hlt (by omega) y hy
          have hpow := Nat.pow_le_pow_right (show 0 < 2 by omega) (show o' + 1 ≤ o from hlt)
          omega
        · have heq : y = q := by
            have hoff := aligned_eq hydvd hqdvd (by omega) (by omega)
            omega
          refine hpair o' ho p hp ?_
          rw [← hq, ← heq]
          exact hy
        · have hbig : 2 ^ (o + 1) ∣ y - base := (Nat.pow_dvd_pow 2 hgt).trans hydvd
          have hsum : 2 ^ (o + 1) ∣ y - base + 2 ^ o' :=
            Nat.dvd_add hbig (Nat.pow_dvd_pow 2 hgt)
          have hle : m + 2 ^ (o + 1) ≤ y + 2 ^ o' := by
            have hroom := aligned_add_le hmdvd hsum (by omega)
            omega
          have hlow : y ≤ m := by
            by_contra habove
            have hroom := aligned_add_le hmdvd hbig (by omega)
            omega
          have hself : p ∈ asBlock (p, o) := Block.base_mem hpos
          have hin : p ∈ asBlock (y, o') := by
            simp only [asBlock, Block.mem_def]
            omega
          have hsame := ht.unique (List.mem_map_of_mem (mem_onLists.mpr ⟨hmax, hp⟩))
            (List.mem_map_of_mem (f := asBlock) (mem_onLists.mpr ⟨ho', hy⟩)) hself hin
          have hsize : 2 ^ o = 2 ^ o' := congrArg Block.size hsame
          have hpow : 2 ^ o < 2 ^ o' := Nat.pow_lt_pow_right Nat.one_lt_two hgt
          omega
      obtain rfl : p = m := by omega
      exact ⟨hmdvd, hnofit⟩
  intro o ho p hp
  obtain ⟨hbase, hdvd⟩ := hphase.of_list ho hp
  refine ⟨hbase, Nat.mod_eq_zero_of_dvd hdvd, fun hlt => ?_⟩
  obtain ⟨h1, h2⟩ := hsmall o hlt p hp
  exact ⟨Nat.mod_eq_zero_of_dvd h1, h2⟩

/-- There is only one way to lay out the pages like this. -/
theorem laid_unique (ht : Tiling (Managed base n) ((onLists free).map asBlock))
    (ht' : Tiling (Managed base n) ((onLists free').map asBlock)) (hlaid : Laid base n free)
    (hlaid' : Laid base n free') (ho : o < maxOrder) (hp : p ∈ free o) : p ∈ free' o := by
  obtain ⟨hbase, hmod, hlast⟩ := hlaid o ho p hp
  have hend := listed_end ht ho hp
  have hpos := Nat.two_pow_pos o
  obtain ⟨o', ho', y, hy, hmem⟩ := exists_listed ht' (q := p) ⟨hbase, by omega⟩
  obtain ⟨hbase', hmod', hlast'⟩ := hlaid' o' ho' y hy
  have hend' := listed_end ht' ho' hy
  simp only [asBlock, Block.mem_def] at hmem
  rcases Nat.lt_trichotomy o' o with hlt | rfl | hgt
  · obtain ⟨h1, h2⟩ := hlast' (by omega)
    have hdvd : 2 ^ (o' + 1) ∣ p - base :=
      (Nat.pow_dvd_pow 2 hlt).trans (Nat.dvd_of_mod_eq_zero hmod)
    have hdouble := Shape.two_pow_succ' o'
    have hoff := aligned_eq (Nat.dvd_of_mod_eq_zero h1) hdvd (by omega) (by omega)
    have hpow := Nat.pow_le_pow_right (show 0 < 2 by omega) (show o' + 1 ≤ o from hlt)
    omega
  · have hoff := aligned_eq (Nat.dvd_of_mod_eq_zero hmod') (Nat.dvd_of_mod_eq_zero hmod)
      (by omega) (by omega)
    obtain rfl : y = p := by omega
    exact hy
  · obtain ⟨h1, h2⟩ := hlast (by omega)
    have hdvd : 2 ^ (o + 1) ∣ y - base + 2 ^ o' :=
      Nat.dvd_add ((Nat.pow_dvd_pow 2 hgt).trans (Nat.dvd_of_mod_eq_zero hmod'))
        (Nat.pow_dvd_pow 2 hgt)
    have hroom := aligned_add_le (Nat.dvd_of_mod_eq_zero h1) hdvd (by omega)
    omega

theorem Laid.inPhase (h : Laid base n free) : InPhase base [] free := by
  intro e he
  obtain ⟨ho, hp⟩ := mem_onLists.mp he
  obtain ⟨hbase, hmod, -⟩ := h e.2 ho e.1 hp
  exact ⟨hbase, Nat.dvd_of_mod_eq_zero hmod⟩

theorem Laid.noPair (h : Laid base n free)
    (ht : Tiling (Managed base n) ((onLists free).map asBlock)) : NoPair base free := by
  intro o ho p hp hbad
  have hmax : o < maxOrder := by omega
  obtain ⟨hbase, hmod, hlast⟩ := h o hmax p hp
  obtain ⟨-, -, hlast'⟩ := h o hmax _ hbad
  obtain ⟨m, -, -, hsides⟩ := halves hbase (Nat.dvd_of_mod_eq_zero hmod)
  have hend := listed_end ht hmax hp
  have hend' := listed_end ht hmax hbad
  have hbound := (hlast ho).2
  have hbound' := (hlast' ho).2
  have hdouble := Shape.two_pow_succ' o
  omega

/-- All buddies that the request looks up are of orders where the bit of the base is clear. -/
def PairsAgree (base : ℕ) (h : BuddyUsers) (op : BuddyOp) : Prop :=
  ∀ b ∈ h.lookedUp op, base / 2 ^ b.2 % 2 = 0

/-- The request gets a block. -/
def Serves (s : BuddyPmm) (m : ℕ) : Prop := ∃ p s', s.buddyAllocPages m = some (some p, s')

/-- The state between the requests of a run in which the halves are paired as they were cut. -/
def Paired (base n : ℕ) (h : BuddyUsers) : Prop :=
  ∃ free, Sound base n h free ∧ InPhase base h.own free ∧ NoPair base free

theorem Paired.step {h : BuddyUsers} {op : BuddyOp} (hp : Paired base n h)
    (hop : Allowed base n h op ∧ PairsAgree base h op) :
    ∃ h', h.step op = some h' ∧ Paired base n h' := by
  obtain ⟨free, hs, hphase, hpair⟩ := hp
  obtain ⟨h', free', hstep, hs', hmoved⟩ := hs.step_spec hop.1
  have hagree : Agree base ((h.lookedUp op).map Prod.snd) := by
    intro o ho
    obtain ⟨b, hb, rfl⟩ := List.mem_map.mp ho
    exact hop.2 b hb
  obtain ⟨hphase', hpair'⟩ := hs.keeps hmoved hagree hphase hpair
  exact ⟨h', hstep, free', hs', hphase', hpair'⟩

/-- A request is served exactly if one of the lists with large enough blocks is not empty. -/
theorem Sound.serves_iff {h : BuddyUsers} (hs : Sound base n h free) (m : ℕ) :
    Serves h.pmm m ↔ m ≠ 0 ∧ ∃ o < maxOrder, requestOrder m ≤ o ∧ free o ≠ [] := by
  obtain ⟨r, hrun, halloc⟩ := buddyAllocPages_spec hs.shape m
  unfold Serves
  cases halloc with
  | null hnone =>
    refine iff_of_false ?_ ?_
    · intro hserved
      obtain ⟨p, s', hserved⟩ := hserved
      rw [hrun] at hserved
      simp at hserved
    · intro hsome
      obtain ⟨hm, o, ho, hle, hne⟩ := hsome
      rcases hnone with hzero | hnone
      · exact hm hzero
      · exact hne (hnone o ho hle)
  | block hm hle hcur hfree hcut hshape hsame =>
    refine iff_of_true ⟨_, _, hrun⟩ ⟨hm, _, hcur, hle, ?_⟩
    rw [hfree]
    exact List.cons_ne_nil _ _

/-- In every run in which buddies are looked up only at orders where the bit of the base page
number is clear, giving everything back restores the lists of the beginning. -/
theorem buddy_restores (s : BuddyPmm) (base n : ℕ) (hn : 0 < n)
    (hres : ∀ p, base ≤ p ∧ p < base + n → s.pages.pageReserved p = true)
    (hin : base + n ≤ s.npage) (s' : BuddyPmm)
    (hinit : s.buddyInit.buddyInitMemmap base n = some s') (ops : List BuddyOp)
    (hops : RunMeets step (Allowed base n) ⟨s', []⟩ ops)
    (hpairs : RunMeets step (PairsAgree base) ⟨s', []⟩ ops) :
    ∃ t, runOps step ⟨s', []⟩ ops = some t ∧
      (t.live = [] →
        (∀ o < maxOrder, ∀ p, p ∈ t.listed n o ↔ p ∈ listed ⟨s', []⟩ n o) ∧
        ∀ m, Serves s' m → Serves t.pmm m) := by
  obtain ⟨s'', free, hinit', hshape, hlaid, hsame⟩ := buddyInitMemmap_spec s hn hres
  obtain rfl : s' = s'' := Option.some.inj (hinit.symm.trans hinit')
  have hs := sound_init hshape hsame hin
  have htiling : Tiling (Managed base n) ((onLists free).map asBlock) := hshape.tiling
  obtain ⟨t, hrun, free', ht, hphase, hpair⟩ := runOps_total
    (fun h op (hp : Paired base n h) hop => hp.step hop) ⟨free, hs, Laid.inPhase hlaid, Laid.noPair hlaid htiling⟩
    (hops.and hpairs)
  refine ⟨t, hrun, ?_⟩
  intro hlive
  have hown : t.own = [] := by
    rw [own, hlive, List.map_nil]
  have htiling' : Tiling (Managed base n) ((onLists free').map asBlock) := by
    have hshape' := ht.shape.tiling
    rw [hown, List.nil_append] at hshape'
    exact hshape'
  rw [hown] at hphase
  have hlaid' := laid_of_noPair htiling' hphase hpair
  have hsame' : ∀ o < maxOrder, ∀ p, p ∈ free' o ↔ p ∈ free o := fun o ho p =>
    ⟨laid_unique htiling' htiling hlaid' hlaid ho, laid_unique htiling htiling' hlaid hlaid' ho⟩
  refine ⟨?_, ?_⟩
  · intro o ho p
    rw [ht.listed_eq ho, hs.listed_eq ho]
    exact hsame' o ho p
  · intro m hserves
    obtain ⟨hm, o, ho, hle, hne⟩ := (hs.serves_iff m).mp hserves
    refine (ht.serves_iff m).mpr ⟨hm, o, ho, hle, ?_⟩
    obtain ⟨p, hp⟩ := List.exists_mem_of_ne_nil _ hne
    exact List.ne_nil_of_mem ((hsame' o ho p).mpr hp)

/-- The orders at which buddies are looked up. -/
theorem lookups_order {left o : ℕ} {s : BuddyPmm} {p : ℕ} {b : ℕ × ℕ}
    (hb : b ∈ lookups left s p o) : o ≤ b.2 ∧ b.2 < o + left := by
  induction left generalizing s p o with
  | zero => exact absurd hb List.not_mem_nil
  | succ left ih =>
    rw [lookups] at hb
    split at hb
    · rw [List.mem_singleton.mp hb]
      exact ⟨Nat.le_refl o, by omega⟩
    · rcases List.mem_cons.mp hb with rfl | hb
      · exact ⟨Nat.le_refl o, by omega⟩
      · have h := ih hb
        omega

/-- With a base page at a multiple of the largest block the condition holds in every state. -/
theorem pairsAgree_of_aligned (haligned : 2 ^ (maxOrder - 1) ∣ base) (h : BuddyUsers)
    (op : BuddyOp) : PairsAgree base h op := by
  intro b hb
  cases op with
  | allocPages m => exact absurd hb List.not_mem_nil
  | freePages page m =>
    obtain ⟨hle, hlt⟩ := lookups_order hb
    have hdvd : 2 ^ (b.2 + 1) ∣ base := (Nat.pow_dvd_pow 2 (by omega)).trans haligned
    obtain ⟨k, rfl⟩ := hdvd
    rw [Nat.pow_succ, Nat.mul_assoc, Nat.mul_div_cancel_left _ (Nat.two_pow_pos _),
      Nat.mul_mod_right]

instance (base n : ℕ) (h : BuddyUsers) (op : BuddyOp) : Decidable (Allowed base n h op) :=
  match op with
  | .allocPages _ => inferInstanceAs (Decidable (_ ∧ True))
  | .freePages page m => inferInstanceAs (Decidable (_ ∧ (page, m) ∈ h.live))

instance (base : ℕ) (h : BuddyUsers) (op : BuddyOp) : Decidable (PairsAgree base h op) :=
  inferInstanceAs (Decidable (∀ b ∈ h.lookedUp op, base / 2 ^ b.2 % 2 = 0))

/-- Seven pages at page number `0x80001`: the first two requests are for two pages, the
others for one. -/
def fillSeven : List BuddyOp :=
  [.allocPages 2, .allocPages 2, .allocPages 1, .allocPages 1, .allocPages 1]

def emptySeven : List BuddyOp :=
  [.freePages 0x80003 1, .freePages 0x80004 1, .freePages 0x80007 1, .freePages 0x80001 2,
    .freePages 0x80005 2]

/-- All requests keep to the rules and look up managed pages only, and at the end the block
of four pages is gone for good. -/
theorem four_pages_lost :
    ∃ s' ∈ (machine 0x88000).buddyInit.buddyInitMemmap 0x80001 7,
      RunMeets step (Allowed 0x80001 7) ⟨s', []⟩ (fillSeven ++ emptySeven) ∧
      ∃ t ∈ runOps step ⟨s', []⟩ (fillSeven ++ emptySeven), t.live = [] ∧
        listed ⟨s', []⟩ 7 2 = [0x80001] ∧ t.listed 7 2 = [] := by
  decide +kernel

/-- Nine pages at a multiple of the largest block: three are taken and given back. -/
theorem buddy_restores_nine :
    ∃ s' ∈ (machine 0x88000).buddyInit.buddyInitMemmap 0x80000 9,
      ∃ t, runOps step ⟨s', []⟩ [.allocPages 3, .freePages 0x80000 3] = some t ∧
      (t.live = [] →
        (∀ o < maxOrder, ∀ p, p ∈ t.listed 9 o ↔ p ∈ listed ⟨s', []⟩ 9 o) ∧
        ∀ m, Serves s' m → Serves t.pmm m) := by
  have hmeets : ∃ s' ∈ (machine 0x88000).buddyInit.buddyInitMemmap 0x80000 9,
      RunMeets step (Allowed 0x80000 9) ⟨s', []⟩ [.allocPages 3, .freePages 0x80000 3] ∧
      RunMeets step (PairsAgree 0x80000) ⟨s', []⟩ [.allocPages 3, .freePages 0x80000 3] := by
    decide +kernel
  obtain ⟨s', hinit, hops, hpairs⟩ := hmeets
  exact ⟨s', hinit, buddy_restores (machine 0x88000) 0x80000 9 (by omega) (fun _ _ => rfl)
    (by simp [machine]) s' hinit _ hops hpairs⟩

end Ucore.Dou.BuddyUsers
