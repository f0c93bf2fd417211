import Ucore.Fs.FileCalls
import Ucore.Fs.SfsImage
import Ucore.Library.Terminated
import Ucore.Vfs.Namefile

/-!
The directories of `sfs_inode.c` on the blocks of the volume: one entry in each block. The calls
read the blocks one after the other; `Sfs.slots` is what they read.
-/
namespace Ucore.Vfs

open Library Libs Call
open Fs (Sfs SfsError SfsCall SfsDevice Bytes get32 sfsBmapLoadNolock assertInuse sfsRbuf Faulty
  blkSize)

/-- `struct sfs_disk_entry` -/
structure DiskEntry where
  ino : ℕ
  name : Bytes

/-- `sizeof(struct sfs_disk_entry)` -/
def diskEntrySize : ℕ := 4 + (maxFnameLen + 1)

/-- `sfs_dentry_size` -/
def sfsDentrySize : ℕ := maxFnameLen + 1

/-- The bytes of a block as an entry, with the terminator that is put behind the name. -/
def diskEntry (blk : Bytes) : DiskEntry :=
  ⟨get32 blk, fun i => if i = maxFnameLen then 0 else blk (4 + i)⟩

/-- `strcmp`, where the first string is given by its characters. -/
def strcmp : List UInt8 → Bytes → ℤ
  | [], s2 => 0 - (s2 0).toNat
  | c :: s1, s2 => if c = s2 0 then strcmp s1 (fun i => s2 (i + 1)) else c.toNat - (s2 0).toNat

/-- What a search stores: the last empty slot it passed, and the slot and the inode number of the
name. `found` is `none` for `-E_NOENT`. -/
structure SearchResult where
  emptySlot : ℕ
  found : Option (ℕ × ℕ)

section Calls

variable [SfsDevice]

def sfsDirentReadNolock (sin slot : ℕ) : SfsCall DiskEntry := do
  Call.require (fun s => (s.din sin).type = .dir ∧ slot < (s.din sin).blocks)
  let ino ← sfsBmapLoadNolock sin slot
  assertInuse ino
  let entry ← sfsRbuf diskEntrySize ino 0
  pure (diskEntry entry)

/-- The loop of `sfs_dirent_search_nolock`, with `left` slots from `i` on. -/
def searchLoop (sin : ℕ) (name : List UInt8) : ℕ → ℕ → ℕ → SfsCall SearchResult
  | 0, _, emptySlot => pure ⟨emptySlot, none⟩
  | left + 1, i, emptySlot => do
    let entry ← sfsDirentReadNolock sin i
    if entry.ino = 0 then searchLoop sin name left (i + 1) i
    else if strcmp name entry.name = 0 then pure ⟨emptySlot, some (i, entry.ino)⟩
    else searchLoop sin name left (i + 1) emptySlot

def sfsDirentSearchNolock (kmalloc : Bool) (sin : ℕ) (name : List UInt8) :
    SfsCall SearchResult := do
  Call.require (fun _ => name.length ≤ maxFnameLen)
  if kmalloc = false then Call.fail .noMem
  else do
    let nslots ← Call.read (fun s => (s.din sin).blocks)
    searchLoop sin name nslots 0 nslots

/-- `none` for `-E_NOENT`. -/
def findinoLoop (sin ino : ℕ) : ℕ → ℕ → SfsCall (Option DiskEntry)
  | 0, _ => pure none
  | left + 1, i => do
    let entry ← sfsDirentReadNolock sin i
    if entry.ino = ino then pure (some entry) else findinoLoop sin ino left (i + 1)

def sfsDirentFindinoNolock (sin ino : ℕ) : SfsCall (Option DiskEntry) := do
  let nslots ← Call.read (fun s => (s.din sin).blocks)
  findinoLoop sin ino nslots 0

/-- The loop of `sfs_getdirentry_sub_nolock`; `slot` entries are skipped. -/
def getdirentryLoop (sin : ℕ) : ℕ → ℕ → ℕ → SfsCall (Option DiskEntry)
  | 0, _, _ => pure none
  | left + 1, i, slot => do
    let entry ← sfsDirentReadNolock sin i
    if entry.ino = 0 then getdirentryLoop sin left (i + 1) slot
    else if slot = 0 then pure (some entry)
    else getdirentryLoop sin left (i + 1) (slot - 1)

def sfsGetdirentrySubNolock (sin slot : ℕ) : SfsCall (Option DiskEntry) := do
  let nslots ← Call.read (fun s => (s.din sin).blocks)
  getdirentryLoop sin nslots 0 slot

/-- The name is moved to a buffer of `sfs_dentry_size` bytes; `none` for `-E_NOENT`. The slot is an
`int`, and compared as an unsigned one. -/
def sfsGetdirentry (kmalloc : Bool) (sin : ℕ) (offset : ℤ) : SfsCall (Option Bytes) :=
  if kmalloc = false then Call.fail .noMem
  else if offset < 0 ∨ offset % sfsDentrySize ≠ 0 then Call.fail .inval
  else do
    let slot := uint32 (offset / sfsDentrySize).toNat
    let nslots ← Call.read (fun s => (s.din sin).blocks)
    if slot > nslots then pure none
    else do
      let entry ← sfsGetdirentrySubNolock sin slot
      pure (entry.map DiskEntry.name)

end Calls

/-- `struct dirent` -/
structure Dirent where
  offset : ℤ
  name : Bytes

/-- `file_getdirentry`: where an entry is found, the offset moves on by what was moved. The
directory entry of the caller is only changed then. -/
def fileGetdirentry [SfsDevice] (kmalloc : Bool) (sin : ℕ) (d : Dirent) :
    SfsCall (Option Dirent) := do
  let name ← sfsGetdirentry kmalloc sin d.offset
  pure (name.map fun bytes => ⟨d.offset + sfsDentrySize, bytes⟩)

/-- `readdir` again and again, until it gives `NULL`. -/
def readdirAll [SfsDevice] (sin : ℕ) : ℕ → Dirent → SfsCall (List Dirent)
  | 0, _ => Call.panic
  | fuel + 1, d => do
    let next ← fileGetdirentry true sin d
    match next with
    | none => pure []
    | some d' => do
      let rest ← readdirAll sin fuel d'
      pure (d' :: rest)

/-! What the blocks say. -/

/-- The name in an entry. -/
def DiskEntry.bytes (e : DiskEntry) : List UInt8 := stringIn 0 maxFnameLen e.name

/-- The characters of a name. -/
def chars (name : List UInt8) : List Char := name.map (fun c => Char.ofNat c.toNat)

/-- The entry in a slot of a directory. -/
def entryAt (s : Sfs) (sin k : ℕ) : DiskEntry := diskEntry (s.disk (s.blockOf sin k))

def entries (s : Sfs) (sin : ℕ) : List DiskEntry :=
  (List.range (s.din sin).blocks).map (entryAt s sin)

/-- The slots of a directory as its blocks have them. -/
def slotsOn (s : Sfs) (sin : ℕ) : Slots := (entries s sin).map (fun e => (e.ino, chars e.bytes))

/-- The names that `readdir` gives. -/
def listed (s : Sfs) (sin : ℕ) : List DiskEntry := (entries s sin).filter (fun e => e.ino ≠ 0)

/-- A directory of a volume in order. -/
structure GoodDir (s : Sfs) (sin : ℕ) : Prop where
  inv : Fs.Inv False s
  ino : sin ∈ s.inos
  type : (s.din sin).type = .dir

/-! Names. -/

/-- The comparison sees the name up to its terminator. -/
theorem strcmp_eq_zero_iff {name : List UInt8} {n : ℕ} {buf : Bytes} (hno : (0 : UInt8) ∉ name)
    (hlen : name.length ≤ n) (hend : buf n = 0) :
    strcmp name buf = 0 ↔ stringIn 0 n buf = name := by
  induction name generalizing n buf with
  | nil =>
    have hzero : strcmp [] buf = 0 ↔ buf 0 = 0 := by
      rw [strcmp, UInt8.ext_iff]
      exact ⟨fun h => by rw [UInt8.toNat_zero]; omega, fun h => by rw [h]; rfl⟩
    rw [hzero]
    cases n with
    | zero => exact ⟨fun _ => rfl, fun _ => hend⟩
    | succ n =>
      rw [stringIn_succ]
      by_cases h0 : buf 0 = 0
      · rw [if_pos h0]
        exact ⟨fun _ => rfl, fun _ => h0⟩
      · rw [if_neg h0]
        exact ⟨fun h => absurd h h0, fun h => absurd h (List.cons_ne_nil _ _)⟩
  | cons c rest ih =>
    rw [List.mem_cons, not_or] at hno
    obtain ⟨m, rfl⟩ : ∃ m, n = m + 1 := ⟨n - 1, by rw [List.length_cons] at hlen; omega⟩
    have hrest := @ih m (fun i => buf (i + 1)) hno.2 (Nat.le_of_succ_le_succ hlen) hend
    rw [strcmp, stringIn_succ]
    by_cases hc : c = buf 0
    · have h0 : buf 0 ≠ 0 := fun h => hno.1 (h.symm.trans hc.symm)
      rw [if_pos hc, if_neg h0, hc, List.cons_inj_right]
      exact hrest
    · rw [if_neg hc]
      constructor
      · intro h
        exact absurd (UInt8.toNat_inj.mp (by omega)) hc
      · intro h
        by_cases h0 : buf 0 = 0
        · rw [if_pos h0] at h
          exact absurd h.symm (List.cons_ne_nil _ _)
        · rw [if_neg h0] at h
          exact absurd (List.cons.inj h).1.symm hc

theorem chars_injective : Function.Injective chars := by
  refine List.map_injective_iff.mpr ?_
  intro c d h
  have hvalid : ∀ c : UInt8, (Char.ofNat c.toNat).toNat = c.toNat := by
    intro c
    have hlt := c.toNat_lt
    have hv : c.toNat.isValidChar := .inl (by omega)
    unfold Char.ofNat
    rw [dif_pos hv]
    rfl
  rw [← UInt8.toNat_inj, ← hvalid c, ← hvalid d]
  exact congrArg Char.toNat h

variable {s t : Sfs} {sin ino k : ℕ} {name : List UInt8}

/-- The terminator of an entry stands at the end of its buffer. -/
theorem entryAt_name_end : (entryAt s sin k).name maxFnameLen = 0 := by
  unfold entryAt diskEntry
  dsimp only
  rw [if_pos rfl]

theorem slotsOn_drop (hk : k < (s.din sin).blocks) : (slotsOn s sin).drop k =
    ((entryAt s sin k).ino, chars (entryAt s sin k).bytes) :: (slotsOn s sin).drop (k + 1) := by
  unfold slotsOn entries
  rw [List.drop_eq_getElem_cons (by simpa using hk)]
  simp

/-- A call that cannot fail and leaves the state alone. -/
theorem exists_of_ends {α : Type} {x : SfsCall α} {P : α → Prop}
    (h : Ends False x s (fun r t => t = s ∧ P r) (fun _ _ => False)) :
    ∃ r, x s = some (.ok r, s) ∧ P r := by
  obtain ⟨r, hr⟩ := h.exists
  obtain ⟨res, t⟩ := r
  cases res with
  | error e => exact (h.of_error hr).elim
  | ok b =>
    obtain ⟨rfl, hb⟩ := h.of_ok hr
    exact ⟨b, hr, hb⟩

/-- The slots in use are those that `readdir` gives. -/
theorem direntSearch_slotsOn (name : List UInt8) : direntSearch (chars name) (slotsOn s sin) =
    ((listed s sin).find? (fun e => decide (e.bytes = name))).map DiskEntry.ino := by
  unfold slotsOn listed
  induction entries s sin with
  | nil => rfl
  | cons e rest ih =>
    rw [List.map_cons, direntSearch]
    by_cases h0 : e.ino = 0
    · rw [if_pos h0, List.filter_cons_of_neg (by simp [h0])]
      exact ih
    rw [if_neg h0, List.filter_cons_of_pos (by simp [h0])]
    by_cases hname : e.bytes = name
    · rw [if_pos (congrArg chars hname.symm), List.find?_cons_of_pos (by simp [hname])]
      rfl
    · rw [if_neg (fun h => hname (chars_injective h).symm),
        List.find?_cons_of_neg (by simp [hname])]
      exact ih

theorem direntFindino_slotsOn (h0 : ino ≠ 0) : direntFindino ino (slotsOn s sin) =
    ((listed s sin).find? (fun e => decide (e.ino = ino))).map (fun e => chars e.bytes) := by
  unfold slotsOn listed
  induction entries s sin with
  | nil => rfl
  | cons e rest ih =>
    rw [List.map_cons, direntFindino]
    by_cases hino : e.ino = ino
    · rw [if_pos hino, List.filter_cons_of_pos (by simp [hino, h0]),
        List.find?_cons_of_pos (by simp [hino])]
      rfl
    · rw [if_neg hino, ih]
      by_cases he : e.ino = 0
      · rw [List.filter_cons_of_neg (by simp [he])]
      · rw [List.filter_cons_of_pos (by simp [he]), List.find?_cons_of_neg (by simp [hino])]

section Calls

variable [SfsDevice] {E : SfsError → Sfs → Prop}

theorem sfsDirentReadNolock_ends (hd : GoodDir s sin) (hk : k < (s.din sin).blocks)
    (hE : ∀ e, Faulty → E e s) {Q : DiskEntry → Sfs → Prop} (hQ : Q (entryAt s sin k) s) :
    Ends False (sfsDirentReadNolock sin k) s Q E := by
  have hm := hd.inv.accounts.mounted
  have hs := hd.inv.sound (fun hbad => hbad)
  unfold sfsDirentReadNolock
  refine Ends.bind (Ends.require (fun _ => ?_) (fun hno => hno ⟨hd.type, hk⟩))
  refine Ends.bind (Fs.sfsBmapLoadNolock_get_ends hd.inv hd.ino hk hE ?_)
  intro h0 hlt
  have htaken : s.freemap.bit (s.blockOf sin k) = false := Bool.eq_false_iff.mpr
    (hd.inv.accounts.ledger.taken _ _
      (Sfs.owns_slot hd.ino hk (Nat.lt_of_lt_of_le hk (hs.limit sin hd.ino)) h0))
  refine Ends.bind (Fs.assertInuse_ends hm (fun hno => hno ⟨h0, hlt, htaken⟩) ?_)
  intro _ _ _
  have hfit : 0 < blkSize ∧ 0 + diskEntrySize ≤ blkSize := by decide
  refine Ends.bind (Fs.sfsRbuf_ends hm hfit (fun hno => hno ⟨h0, hlt⟩)
    (fun hr => hE _ ⟨s, false, _, hr⟩) ?_)
  intro _ _ _
  simp only [Nat.zero_add]
  exact Ends.pure hQ

/-- The search from a slot on: the state is as before, and the name is looked for in the slots. -/
theorem searchLoop_ends (hd : GoodDir s sin) (hE : ∀ e, Faulty → E e s) (hno : (0 : UInt8) ∉ name)
    (hlen : name.length ≤ maxFnameLen) {left i emptySlot : ℕ} (hi : i + left = (s.din sin).blocks) :
    Ends False (searchLoop sin name left i emptySlot) s (fun r t => t = s ∧
      r.found.map Prod.snd = direntSearch (chars name) ((slotsOn s sin).drop i)) E := by
  induction left generalizing i emptySlot with
  | zero =>
    refine Ends.pure ⟨rfl, ?_⟩
    rw [List.drop_of_length_le (by simp [slotsOn, entries]; omega)]
    rfl
  | succ left ih =>
    have hk : i < (s.din sin).blocks := by omega
    refine Ends.bind (sfsDirentReadNolock_ends hd hk hE ?_)
    have hsame : strcmp name (entryAt s sin i).name = 0 ↔
        chars name = chars (entryAt s sin i).bytes := by
      rw [strcmp_eq_zero_iff hno hlen entryAt_name_end, chars_injective.eq_iff]
      exact eq_comm
    rw [slotsOn_drop hk, direntSearch]
    by_cases h0 : (entryAt s sin i).ino = 0
    · rw [if_pos h0, if_pos h0]
      exact ih (by omega)
    rw [if_neg h0, if_neg h0]
    by_cases hfound : strcmp name (entryAt s sin i).name = 0
    · rw [if_pos hfound, if_pos (hsame.mp hfound)]
      exact Ends.pure ⟨rfl, rfl⟩
    · rw [if_neg hfound, if_neg (fun h => hfound (hsame.mpr h))]
      exact ih (by omega)

theorem findinoLoop_ends (hd : GoodDir s sin) (hE : ∀ e, Faulty → E e s) {left i : ℕ}
    (hi : i + left = (s.din sin).blocks) :
    Ends False (findinoLoop sin ino left i) s (fun r t => t = s ∧
      r.map (fun e => chars e.bytes) = direntFindino ino ((slotsOn s sin).drop i)) E := by
  induction left generalizing i with
  | zero =>
    refine Ends.pure ⟨rfl, ?_⟩
    rw [List.drop_of_length_le (by simp [slotsOn, entries]; omega)]
    rfl
  | succ left ih =>
    have hk : i < (s.din sin).blocks := by omega
    refine Ends.bind (sfsDirentReadNolock_ends hd hk hE ?_)
    rw [slotsOn_drop hk, direntFindino]
    by_cases hfound : (entryAt s sin i).ino = ino
    · rw [if_pos hfound, if_pos hfound]
      exact Ends.pure ⟨rfl, rfl⟩
    · rw [if_neg hfound, if_neg hfound]
      exact ih (by omega)

/-- Empty slots are passed over, and `slot` entries besides. -/
theorem getdirentryLoop_ends (hd : GoodDir s sin) (hE : ∀ e, Faulty → E e s) {left i slot : ℕ}
    (hi : i + left = (s.din sin).blocks) :
    Ends False (getdirentryLoop sin left i slot) s (fun r t => t = s ∧
      r = (((entries s sin).drop i).filter (fun e => e.ino ≠ 0))[slot]?) E := by
  induction left generalizing i slot with
  | zero =>
    refine Ends.pure ⟨rfl, ?_⟩
    rw [List.drop_of_length_le (by simp [entries]; omega)]
    rfl
  | succ left ih =>
    have hk : i < (s.din sin).blocks := by omega
    have hdrop : (entries s sin).drop i = entryAt s sin i :: (entries s sin).drop (i + 1) := by
      unfold entries
      rw [List.drop_eq_getElem_cons (by simpa using hk)]
      simp
    refine Ends.bind (sfsDirentReadNolock_ends hd hk hE ?_)
    rw [hdrop]
    by_cases h0 : (entryAt s sin i).ino = 0
    · rw [if_pos h0, List.filter_cons_of_neg (by simp [h0])]
      exact ih (by omega)
    rw [if_neg h0, List.filter_cons_of_pos (by simp [h0])]
    cases slot with
    | zero => exact Ends.pure ⟨rfl, rfl⟩
    | succ slot =>
      rw [if_neg (Nat.succ_ne_zero slot), List.getElem?_cons_succ]
      exact ih (by omega)

omit [SfsDevice] in
theorem listed_length_le : (listed s sin).length ≤ (s.din sin).blocks := by
  unfold listed
  refine (List.length_filter_le _ _).trans ?_
  unfold entries
  rw [List.length_map, List.length_range]

/-- The offset counts the entries that were given so far. -/
theorem fileGetdirentry_ends (hd : GoodDir s sin) (hE : ∀ e, Faulty → E e s) {j : ℕ} {old : Bytes}
    (hj : j ≤ (listed s sin).length) :
    Ends False (fileGetdirentry true sin ⟨(sfsDentrySize * j : ℕ), old⟩) s (fun r t => t = s ∧
      r = ((listed s sin)[j]?).map fun e => ⟨(sfsDentrySize * (j + 1) : ℕ), e.name⟩) E := by
  have hlimit := (hd.inv.sound (fun hbad => hbad)).limit sin hd.ino
  have hle : j ≤ (s.din sin).blocks := hj.trans listed_length_le
  have hsize : sfsDentrySize = 256 := rfl
  have hmax : Fs.maxBlocks = 1036 := rfl
  have hdiv : ((sfsDentrySize * j : ℕ) : ℤ) / (sfsDentrySize : ℕ) = (j : ℤ) := by
    rw [hsize]
    omega
  have hslot : uint32 (((sfsDentrySize * j : ℕ) : ℤ) / (sfsDentrySize : ℕ)).toNat = j := by
    rw [hdiv, Int.toNat_natCast]
    exact uint32_of_lt (by omega)
  have hoffset : ¬ (((sfsDentrySize * j : ℕ) : ℤ) < 0 ∨
      ((sfsDentrySize * j : ℕ) : ℤ) % (sfsDentrySize : ℕ) ≠ 0) := by
    rw [hsize]
    omega
  unfold fileGetdirentry
  refine Ends.bind ?_
  unfold sfsGetdirentry
  rw [if_neg (by decide), if_neg hoffset]
  refine Ends.bind (Ends.read ?_)
  rw [hslot, if_neg (by omega)]
  refine Ends.bind ?_
  unfold sfsGetdirentrySubNolock
  refine Ends.bind (Ends.read ?_)
  refine (getdirentryLoop_ends hd hE (Nat.zero_add _)).mono ?_ (fun _ _ he => he)
  intro r t hr
  obtain ⟨rfl, hr⟩ := hr
  refine Ends.pure (Ends.pure ⟨rfl, ?_⟩)
  rw [hr, List.drop_zero, Option.map_map]
  rfl

/-- `readdir` from an entry on gives the other ones in order. -/
theorem readdirAll_ends (hd : GoodDir s sin) (hE : ∀ e, Faulty → E e s) {fuel j : ℕ} {old : Bytes}
    (hj : j ≤ (listed s sin).length) (hfuel : (listed s sin).length < j + fuel) :
    Ends False (readdirAll sin fuel ⟨(sfsDentrySize * j : ℕ), old⟩) s (fun ds t => t = s ∧
      ds = (((listed s sin).drop j).zipIdx j).map fun e =>
        ⟨(sfsDentrySize * (e.2 + 1) : ℕ), e.1.name⟩) E := by
  induction fuel generalizing j old with
  | zero => omega
  | succ fuel ih =>
    unfold readdirAll
    refine Ends.bind ((fileGetdirentry_ends hd hE hj).mono ?_ (fun _ _ he => he))
    intro r t hr
    obtain ⟨rfl, rfl⟩ := hr
    by_cases hlt : j < (listed t sin).length
    · rw [List.getElem?_eq_getElem hlt, Option.map_some]
      refine Ends.bind ((ih hlt (by omega)).mono ?_ (fun _ _ he => he))
      intro rest u hrest
      obtain ⟨rfl, rfl⟩ := hrest
      refine Ends.pure ⟨rfl, ?_⟩
      rw [List.drop_eq_getElem_cons hlt, List.zipIdx_cons, List.map_cons]
    · rw [List.getElem?_eq_none (by omega), Option.map_none]
      refine Ends.pure ⟨rfl, ?_⟩
      rw [List.drop_of_length_le (by omega)]
      rfl

/-- `readdir` from the start. -/
theorem readdirAll_listed (hw : ¬ Faulty) (hd : GoodDir s sin) (old : Bytes) :
    readdirAll sin ((s.din sin).blocks + 1) ⟨0, old⟩ s = some (.ok ((listed s sin).zipIdx.map
      fun e => ⟨(sfsDentrySize * (e.2 + 1) : ℕ), e.1.name⟩), s) := by
  have hle := @listed_length_le s sin
  have hall := @readdirAll_ends s sin _ (fun _ _ => False) hd (fun _ hbad => hw hbad)
    ((s.din sin).blocks + 1) 0 old (Nat.zero_le _) (by omega)
  rw [List.drop_zero] at hall
  obtain ⟨_, heq, rfl⟩ := exists_of_ends hall
  exact heq

theorem sfsDirentSearchNolock_slots (hw : ¬ Faulty) (hd : GoodDir s sin) (hno : (0 : UInt8) ∉ name)
    (hlen : name.length ≤ maxFnameLen) :
    ∃ r, sfsDirentSearchNolock true sin name s = some (.ok r, s) ∧
      r.found.map Prod.snd = direntSearch (chars name) (slotsOn s sin) := by
  refine exists_of_ends ?_
  unfold sfsDirentSearchNolock
  refine Ends.bind (Ends.require (fun _ => ?_) (fun hbad => hbad hlen))
  rw [if_neg (by decide)]
  refine Ends.bind (Ends.read ?_)
  refine (searchLoop_ends hd (fun _ hbad => hw hbad) hno hlen (Nat.zero_add _)).mono ?_
    (fun _ _ he => he)
  intro r t hr
  rw [List.drop_zero] at hr
  exact hr

theorem sfsDirentFindinoNolock_slots (hw : ¬ Faulty) (hd : GoodDir s sin) (ino : ℕ) :
    ∃ r, sfsDirentFindinoNolock sin ino s = some (.ok r, s) ∧
      r.map (fun e => chars e.bytes) = direntFindino ino (slotsOn s sin) := by
  refine exists_of_ends ?_
  unfold sfsDirentFindinoNolock
  refine Ends.bind (Ends.read ?_)
  refine (findinoLoop_ends hd (fun _ hbad => hw hbad) (Nat.zero_add _)).mono ?_ (fun _ _ he => he)
  intro r t hr
  rw [List.drop_zero] at hr
  exact hr

/-- `readdir` from the start gives the entries that are in use, in order and each of them once,
and then `NULL`. A search finds a name if and only if `readdir` gives it, with the number of its
first entry, and the search for a number finds the first name that has it. -/
theorem directory_calls_agree (hw : ¬ Faulty) (hd : GoodDir s sin) (old : Bytes) :
    readdirAll sin ((s.din sin).blocks + 1) ⟨0, old⟩ s = some (.ok ((listed s sin).zipIdx.map
      fun e => ⟨(sfsDentrySize * (e.2 + 1) : ℕ), e.1.name⟩), s) ∧
    (∀ name : List UInt8, 0 ∉ name → name.length ≤ maxFnameLen →
      ∃ r, sfsDirentSearchNolock true sin name s = some (.ok r, s) ∧
        r.found.map Prod.snd = direntSearch (chars name) (slotsOn s sin) ∧
        r.found.map Prod.snd =
          ((listed s sin).find? (fun e => decide (e.bytes = name))).map DiskEntry.ino) ∧
    ∀ ino ≠ 0, ∃ r, sfsDirentFindinoNolock sin ino s = some (.ok r, s) ∧
      r.map (fun e => chars e.bytes) = direntFindino ino (slotsOn s sin) ∧
      r.map DiskEntry.bytes =
        ((listed s sin).find? (fun e => decide (e.ino = ino))).map DiskEntry.bytes := by
  refine ⟨readdirAll_listed hw hd old, ?_, ?_⟩
  · intro name hno hlen
    obtain ⟨r, hr, hfound⟩ := sfsDirentSearchNolock_slots hw hd hno hlen
    exact ⟨r, hr, hfound, hfound.trans (direntSearch_slotsOn name)⟩
  · intro ino h0
    obtain ⟨r, hr, hfound⟩ := sfsDirentFindinoNolock_slots hw hd ino
    refine ⟨r, hr, hfound, Option.map_injective chars_injective ?_⟩
    rw [Option.map_map, Option.map_map]
    exact hfound.trans (direntFindino_slotsOn h0)

end Calls

/-- An image whose file is a directory. -/
def dirImage (k : ℕ) (disk : ℕ → Bytes) : Sfs :=
  let s := Fs.sfsImage 1100 k (sfsDentrySize * k) disk
  s.setDin Fs.imageIno { s.din Fs.imageIno with type := .dir }

/-- The type of a file is none of its places. -/
theorem dirImage_good {k : ℕ} {disk : ℕ → Bytes} (hk : k ≤ Fs.nDirect) :
    GoodDir (dirImage k disk) Fs.imageIno := by
  have hn : 4 + k ≤ 1100 := by
    unfold Fs.nDirect at hk
    omega
  have hi : Fs.Inv False (Fs.sfsImage 1100 k (sfsDentrySize * k) disk) :=
    Fs.sfsImage_inv hn (by decide) hk
  have hs := hi.sound (fun hbad => hbad)
  have hmap : ∀ j, ((dirImage k disk).din j).direct =
      ((Fs.sfsImage 1100 k (sfsDentrySize * k) disk).din j).direct ∧
      ((dirImage k disk).din j).indirect =
        ((Fs.sfsImage 1100 k (sfsDentrySize * k) disk).din j).indirect ∧
      ((dirImage k disk).din j).blocks =
        ((Fs.sfsImage 1100 k (sfsDentrySize * k) disk).din j).blocks := by
    intro j
    unfold dirImage
    rw [Sfs.din_setDin]
    by_cases hj : j = Fs.imageIno
    · rw [if_pos hj, hj]
      exact ⟨rfl, rfl, rfl⟩
    · rw [if_neg hj]
      exact ⟨rfl, rfl, rfl⟩
  have hblock : ∀ j i, (dirImage k disk).blockOf j i =
      (Fs.sfsImage 1100 k (sfsDentrySize * k) disk).blockOf j i := by
    intro j i
    unfold Sfs.blockOf
    rw [(hmap j).1, (hmap j).2.1]
    rfl
  refine ⟨⟨?_, ?_, fun _ => ⟨hs.beyond, ?_, ?_, ?_, ?_⟩⟩,
    List.mem_cons_of_mem _ List.mem_cons_self, ?_⟩
  · refine hi.accounts.of_ledger rfl rfl rfl rfl rfl (hi.accounts.ledger.congr ?_)
    exact Sfs.owns_setDin_iff _ _ (fun _ _ _ => Iff.rfl) (fun _ _ => Iff.rfl) (fun _ => Iff.rfl)
      (fun _ _ => Iff.rfl)
  · intro j hj hind i hlt hblocks
    rw [(hmap j).2.1] at hind ⊢
    rw [(hmap j).2.2] at hblocks
    exact hi.zeroTail j hj hind i hlt hblocks
  · intro j hj i hlt
    rw [(hmap j).2.2] at hlt
    rw [hblock]
    exact hs.slots j hj i hlt
  · intro j hj
    rw [(hmap j).1]
    exact hs.direct j hj
  · intro j hj
    rw [(hmap j).2.1]
    exact hs.indirect j hj
  · intro j hj
    rw [(hmap j).2.2]
    exact hs.limit j hj
  · unfold dirImage
    rw [Sfs.din_setDin_self]

/-- Three slots: an entry for the file itself with the name `a`, an empty one, and one for the root
with the name `b`. -/
def dirImageDisk (b : ℕ) : Bytes := fun i =>
  if b = 4 then [3, 0, 0, 0, 97].getD i 0
  else if b = 6 then [1, 0, 0, 0, 98].getD i 0
  else 0

theorem directory_calls_agree_image : letI := Fs.workingDevice
    readdirAll Fs.imageIno (((dirImage 3 dirImageDisk).din Fs.imageIno).blocks + 1)
        ⟨0, fun _ => 0⟩ (dirImage 3 dirImageDisk) =
      some (.ok ((listed (dirImage 3 dirImageDisk) Fs.imageIno).zipIdx.map
        fun e => ⟨(sfsDentrySize * (e.2 + 1) : ℕ), e.1.name⟩), dirImage 3 dirImageDisk) ∧
    (listed (dirImage 3 dirImageDisk) Fs.imageIno).map DiskEntry.ino = [3, 1] ∧
    ∃ r, sfsDirentSearchNolock true Fs.imageIno [98] (dirImage 3 dirImageDisk) =
      some (.ok r, dirImage 3 dirImageDisk) ∧ r.found.map Prod.snd = some 1 := by
  let := Fs.workingDevice
  obtain ⟨hall, hsearch, -⟩ := directory_calls_agree Fs.not_faulty_working
    (@dirImage_good 3 dirImageDisk (by decide)) (fun _ => 0)
  refine ⟨hall, by decide, ?_⟩
  obtain ⟨r, hr, -, hfound⟩ := hsearch [98] (by decide) (by decide)
  exact ⟨r, hr, hfound.trans (by decide)⟩

end Ucore.Vfs
