import Ucore.Tools.HostImage

/-!
A mounted image as the calls of the kernel see it: with `readdir`, the search for a name and `read`
one finds the tree of the host.
-/
namespace Ucore.Tools

open Fs Libs Library

/-- The names that are not hidden, as they are stored. -/
def Entries.names : Entries → List (List UInt8)
  | .nil => []
  | .cons name _ rest => if name.head? = some dot then rest.names else storedName name :: rest.names

mutual

/-- No directory has a stored name twice. -/
def Node.Distinct : Node → Prop
  | .file _ _ => True
  | .dir _ entries => entries.names.Nodup ∧ entries.Distinct

def Entries.Distinct : Entries → Prop
  | .nil => True
  | .cons name node rest => (name.head? = some dot ∨ node.Distinct) ∧ rest.Distinct

end

section Calls

variable [SfsDevice]

/-- What the search for a name in a directory gives; `none` is `-E_NOENT`. -/
def Finds (s : Sfs) (dir : ℕ) (name : List UInt8) (ino : Option ℕ) : Prop :=
  ∃ r, Vfs.sfsDirentSearchNolock true dir name s = some (.ok r, s) ∧ r.found.map Prod.snd = ino

/-- What `readdir` gives from the start to the end of a directory. -/
def Lists (s : Sfs) (dir : ℕ) (names : List (List UInt8)) : Prop :=
  ∀ old, ∃ ds, Vfs.readdirAll dir ((s.din dir).blocks + 1) ⟨0, old⟩ s = some (.ok ds, s) ∧
    ds.map (fun d => stringIn 0 Vfs.maxFnameLen d.name) = names

/-- Reading any range of the file gives the bytes of it that there are. -/
def ReadsAs (s : Sfs) (ino : ℕ) (c : Content) : Prop :=
  ∀ (buf : Bytes) (offset : ℤ) (len : ℕ), 0 ≤ offset → offset < maxFileSize →
    offset + len < 2 ^ 63 → ∃ r, sfsIoNolock s ino buf offset len false = some r ∧ r.sfs = s ∧
      r.ret = .ok ⟨⟩ ∧ r.alen = min len (c.size - offset.toNat) ∧
      ∀ j < r.alen, r.buf j = c.bytes (offset.toNat + j)

mutual

/-- The calls on the inode `ino` in the directory `parent` show the node. -/
def Node.Shown (s : Sfs) (link : ℕ → Option ℕ) (ino parent : ℕ) : Node → Prop
  | .file real c => link real = some ino ∧ (s.din ino).type = .file ∧ ReadsAs s ino c
  | .dir real entries => link real = some ino ∧ (s.din ino).type = .dir ∧
      Lists s ino ([dot] :: [dot, dot] :: entries.names) ∧
      Finds s ino [dot] (some ino) ∧ Finds s ino [dot, dot] (some parent) ∧
      (∀ name : List UInt8, 0 ∉ name → name.length ≤ Vfs.maxFnameLen →
        name ∉ [dot] :: [dot, dot] :: entries.names → Finds s ino name none) ∧
      entries.Shown s link ino

def Entries.Shown (s : Sfs) (link : ℕ → Option ℕ) (dir : ℕ) : Entries → Prop
  | .nil => True
  | .cons name node rest => (name.head? = some dot ∨ ∃ ino,
      Finds s dir (storedName name) (some ino) ∧ node.Shown s link ino dir) ∧ rest.Shown s link dir

end

end Calls

variable {s : Sfs} {link : ℕ → Option ℕ} {content : ℕ → Option Content} {ino dir parent : ℕ}
  {name : List UInt8}

/-! Names. -/

theorem storedName_head (name : List UInt8) : (storedName name).head? = name.head? := by
  cases name with
  | nil => rfl
  | cons c rest => rfl

theorem length_storedName_le (name : List UInt8) : (storedName name).length ≤ Vfs.maxFnameLen := by
  unfold storedName
  rw [List.length_take]
  exact (Nat.min_le_left _ _).trans (by decide)

/-- A stored name can be looked for, and it is none of the two that every directory has. -/
theorem Entries.Fits.names : {entries : Entries} → entries.Fits content → ∀ name ∈ entries.names,
    name.head? ≠ some dot ∧ (0 : UInt8) ∉ name ∧ name.length ≤ Vfs.maxFnameLen
  | .nil, _, name, hname => absurd hname List.not_mem_nil
  | .cons first node rest, hfit, name, hname => by
    rw [Entries.Fits] at hfit
    rw [Entries.names] at hname
    by_cases hhidden : first.head? = some dot
    · rw [if_pos hhidden] at hname
      exact Entries.Fits.names hfit.2 name hname
    · rw [if_neg hhidden] at hname
      rcases List.mem_cons.mp hname with rfl | hname
      · refine ⟨?_, ?_, length_storedName_le first⟩
        · rw [storedName_head]
          exact hhidden
        · exact fun hbad => (hfit.1.resolve_left hhidden).1 (List.mem_of_mem_take hbad)
      · exact Entries.Fits.names hfit.2 name hname

/-- The slots of a directory are its names with inodes of the volume. -/
theorem Entries.At.slots {V : TreeView} : {entries : Entries} → {slots : List (ℕ × List UInt8)} →
    entries.At V link dir slots → slots.map Prod.snd = entries.names ∧ ∀ e ∈ slots, V.inos e.1
  | .nil, slots, h => by
    rw [Entries.At] at h
    rw [h]
    exact ⟨rfl, fun e he => absurd he List.not_mem_nil⟩
  | .cons first node rest, slots, h => by
    rw [Entries.At] at h
    rw [Entries.names]
    by_cases hhidden : first.head? = some dot
    · rw [if_pos hhidden] at h ⊢
      exact Entries.At.slots h
    · rw [if_neg hhidden] at h ⊢
      obtain ⟨ino, slots', rfl, hnode, hrest⟩ := h
      obtain ⟨hnames, hinos⟩ := Entries.At.slots hrest
      refine ⟨?_, ?_⟩
      · rw [List.map_cons, hnames]
      · intro e he
        rcases List.mem_cons.mp he with rfl | he
        · cases node with
          | file real c =>
            rw [Node.At] at hnode
            exact hnode.2.inside
          | dir real entries =>
            rw [Node.At] at hnode
            exact hnode.2.1
        · exact hinos e he

/-- With no name twice, the first slot of a name is the only one. -/
theorem find_slot {slots : List (ℕ × List UInt8)} (hnodup : (slots.map Prod.snd).Nodup)
    (hmem : (ino, name) ∈ slots) :
    (slots.find? (fun e => decide (e.2 = name))).map Prod.fst = some ino := by
  induction slots with
  | nil => exact absurd hmem List.not_mem_nil
  | cons e rest ih =>
    rw [List.map_cons, List.nodup_cons] at hnodup
    rcases List.mem_cons.mp hmem with rfl | hmem
    · rw [List.find?_cons_of_pos (by simp)]
      rfl
    · have hne : e.2 ≠ name := fun heq => hnodup.1 (heq ▸ List.mem_map_of_mem hmem)
      rw [List.find?_cons_of_neg (by simpa using hne)]
      exact ih hnodup.2 hmem

section Calls

variable [SfsDevice]

/-- A directory without empty slots shows its slots. -/
theorem dir_shown (hw : ¬ Faulty) (hd : Vfs.GoodDir s dir)
    (hused : ∀ e ∈ (volumeView s).slots dir, e.1 ≠ 0)
    (hnodup : (((volumeView s).slots dir).map Prod.snd).Nodup) :
    Lists s dir (((volumeView s).slots dir).map Prod.snd) ∧
    (∀ e ∈ (volumeView s).slots dir, (0 : UInt8) ∉ e.2 → e.2.length ≤ Vfs.maxFnameLen →
      Finds s dir e.2 (some e.1)) ∧
    ∀ name : List UInt8, 0 ∉ name → name.length ≤ Vfs.maxFnameLen →
      name ∉ ((volumeView s).slots dir).map Prod.snd → Finds s dir name none := by
  have hslots : (volumeView s).slots dir = (Vfs.entries s dir).map fun e => (e.ino, e.bytes) := rfl
  have hlisted : Vfs.listed s dir = Vfs.entries s dir := by
    unfold Vfs.listed
    refine List.filter_eq_self.mpr (fun e he => ?_)
    exact decide_eq_true (hused (e.ino, e.bytes) (List.mem_map_of_mem he))
  have hsearch : ∀ name : List UInt8, 0 ∉ name → name.length ≤ Vfs.maxFnameLen →
      Finds s dir name
        ((((volumeView s).slots dir).find? (fun e => decide (e.2 = name))).map Prod.fst) := by
    intro name hno hlen
    obtain ⟨r, hr, hfound⟩ := Vfs.sfsDirentSearchNolock_slots hw hd hno hlen
    refine ⟨r, hr, hfound.trans ((Vfs.direntSearch_slotsOn name).trans ?_)⟩
    rw [hlisted, hslots, List.find?_map, Option.map_map]
    rfl
  refine ⟨?_, ?_, ?_⟩
  · intro old
    refine ⟨_, Vfs.readdirAll_listed hw hd old, ?_⟩
    rw [hlisted, hslots, List.map_map, List.map_map]
    have hbytes : (Vfs.entries s dir).map Vfs.DiskEntry.bytes =
        (((Vfs.entries s dir).zipIdx).map Prod.fst).map Vfs.DiskEntry.bytes := by
      rw [List.zipIdx_map_fst]
    refine Eq.trans ?_ hbytes.symm
    rw [List.map_map]
    rfl
  · intro e he hno hlen
    have hfound := hsearch e.2 hno hlen
    rw [find_slot hnodup he] at hfound
    exact hfound
  · intro name hno hlen hnone
    have hfound := hsearch name hno hlen
    rw [List.find?_eq_none.mpr] at hfound
    · exact hfound
    · intro e he
      rw [decide_eq_true_iff]
      exact fun hbad => hnone (List.mem_map.mpr ⟨e, he, hbad⟩)

mutual

/-- What the volume holds, the calls show. -/
theorem Node.At.shown (hw : ¬ Faulty) (hs : ∀ i ∈ s.inos, Cached s i) : {node : Node} →
    node.Fits content → node.Distinct → ∀ {i p : ℕ}, p ∈ s.inos →
      node.At (volumeView s) link i p → node.Shown s link i p
  | .file real c, _, _, ino, parent, _, h => by
    rw [Node.At] at h
    rw [Node.Shown]
    obtain ⟨hlink, hfile⟩ := h
    have hc := hs ino hfile.inside
    have hsize : (s.din ino).size = c.size := hfile.size
    have htype : (s.din ino).type = .file := hfile.type
    have hfits : Fits s ino := ⟨hfile.inside, by rw [hsize]; exact hfile.blocks, hc.tail⟩
    refine ⟨hlink, htype, ?_⟩
    intro buf offset len h0 hlt hrange
    have hdir : (s.din ino).type ≠ .dir := by
      rw [htype]
      exact Fs.FileType.noConfusion
    obtain ⟨r, hr, hsame, hread⟩ :=
      @sfsIoNolock_read _ ino s buf hc.inv hfits hw hdir offset len
    obtain ⟨hok, halen, hbytes⟩ := hread h0 hlt hrange
    rw [hsize] at halen
    refine ⟨r, hr, hsame, hok, halen, ?_⟩
    intro j hj
    rw [hbytes j hj]
    exact hfile.byte _ (by omega)
  | .dir real entries, hfit, hd, ino, parent, hparent, h => by
    rw [Node.At] at h
    rw [Node.Fits] at hfit
    rw [Node.Distinct] at hd
    rw [Node.Shown]
    obtain ⟨hlink, hino, htype, slots, hslots, hentries⟩ := h
    have hino : ino ∈ s.inos := hino
    have htype : (s.din ino).type = .dir := htype
    obtain ⟨hnames, hinos⟩ := hentries.slots
    have hgood := hfit.2.2.names
    have hall : ((volumeView s).slots ino).map Prod.snd = [dot] :: [dot, dot] :: entries.names := by
      rw [hslots, List.map_cons, List.map_cons, hnames]
    have hused : ∀ e ∈ (volumeView s).slots ino, e.1 ≠ 0 := by
      have hnonzero : ∀ i ∈ s.inos, i ≠ 0 := fun i hi h0 => Owner.noConfusion
        ((hs i hi).inv.accounts.ledger.once (.inode i) .super i ⟨hi, rfl⟩ h0)
      rw [hslots]
      intro e he
      rcases List.mem_cons.mp he with rfl | he
      · exact hnonzero ino hino
      rcases List.mem_cons.mp he with rfl | he
      · exact hnonzero parent hparent
      · exact hnonzero e.1 (hinos e he)
    have hnodup : (((volumeView s).slots ino).map Prod.snd).Nodup := by
      rw [hall, List.nodup_cons, List.nodup_cons]
      refine ⟨?_, fun hbad => (hgood _ hbad).1 rfl, hd.1⟩
      intro hbad
      rcases List.mem_cons.mp hbad with hbad | hbad
      · exact absurd hbad (by decide)
      · exact (hgood _ hbad).1 rfl
    obtain ⟨hlists, hfinds, hmisses⟩ := dir_shown hw ⟨(hs ino hino).inv, hino, htype⟩ hused hnodup
    rw [hall] at hlists hmisses
    rw [hslots] at hfinds
    have hone : (0 : UInt8) ∉ [dot] ∧ [dot].length ≤ Vfs.maxFnameLen := by decide
    have htwo : (0 : UInt8) ∉ [dot, dot] ∧ [dot, dot].length ≤ Vfs.maxFnameLen := by decide
    refine ⟨hlink, htype, hlists, ?_, ?_, hmisses, ?_⟩
    · exact hfinds (ino, [dot]) List.mem_cons_self hone.1 hone.2
    · exact hfinds (parent, [dot, dot]) (List.mem_cons_of_mem _ List.mem_cons_self) htwo.1 htwo.2
    · have hrest : ∀ e ∈ slots, Finds s ino e.2 (some e.1) := by
        intro e he
        have hname := hgood e.2 (hnames ▸ List.mem_map_of_mem he)
        exact hfinds e (List.mem_cons_of_mem _ (List.mem_cons_of_mem _ he)) hname.2.1 hname.2.2
      exact Entries.At.shown hw hs hfit.2.2 hd.2 hino hentries hrest

theorem Entries.At.shown (hw : ¬ Faulty) (hs : ∀ i ∈ s.inos, Cached s i) : {entries : Entries} →
    entries.Fits content → entries.Distinct → ∀ {p : ℕ} {slots : List (ℕ × List UInt8)},
      p ∈ s.inos → entries.At (volumeView s) link p slots →
        (∀ e ∈ slots, Finds s p e.2 (some e.1)) → entries.Shown s link p
  | .nil, _, _, dir, slots, _, _, _ => by
    rw [Entries.Shown]
    trivial
  | .cons first node rest, hfit, hd, dir, slots, hdir, h, hfinds => by
    rw [Entries.At] at h
    rw [Entries.Fits] at hfit
    rw [Entries.Distinct] at hd
    rw [Entries.Shown]
    by_cases hhidden : first.head? = some dot
    · rw [if_pos hhidden] at h
      exact ⟨.inl hhidden, Entries.At.shown hw hs hfit.2 hd.2 hdir h hfinds⟩
    · rw [if_neg hhidden] at h
      obtain ⟨ino, slots', rfl, hnode, hrest⟩ := h
      refine ⟨.inr ⟨ino, hfinds (ino, storedName first) List.mem_cons_self, ?_⟩, ?_⟩
      · exact Node.At.shown hw hs (hfit.1.resolve_left hhidden).2 (hd.1.resolve_left hhidden) hdir
          hnode
      · exact Entries.At.shown hw hs hfit.2 hd.2 hdir hrest
          (fun e he => hfinds e (List.mem_cons_of_mem _ he))

end

/-- Whoever goes through the mounted image with the calls of the kernel sees the tree that the image
was made of: `readdir` gives the names of every directory in order, the search finds these names and
no others, each with the inode that it has in the tree, and reading a file gives the bytes that it
has on the host. -/
theorem image_shows_tree (hw : ¬ Faulty) {stSize : ℕ} {img : ℕ → Bytes} {s₀ t : MkSfs}
    {entries : Entries} (hsize : stSize < 2 ^ 32) (hcreate : createSfs stSize img = some s₀)
    (hfit : (Node.dir 0 entries).Fits content) (hdistinct : (Node.dir 0 entries).Distinct)
    (hrun : ran (createImg entries) s₀ = some t) {d : Sfs} (himg : d.imgSize = stSize)
    (hdisk : d.disk = t.image.block) (hinos : d.inos = t.inoList) :
    ∃ v link, Volume.mount d = some v ∧
      (∀ r r' i, link r = some i → link r' = some i → r = r') ∧
      (Node.dir 0 entries).Shown v.sfs link rootIno rootIno := by
  obtain ⟨s, hclosed, hlist, hat⟩ := createImg_closedFrom hcreate hfit hrun
  have hdev : imgBlocks stSize ≤ (imageVolume stSize s t).dBlocks :=
    imgBlocks_le_disk0 hsize t.image.block
  obtain ⟨info, hmount⟩ := hclosed.mount hdev himg hdisk (hinos.trans hlist)
  have hback := hclosed.backed hdev (fun _ => 0)
  refine ⟨_, searchCacheInode s, hmount, ?_, ?_⟩
  · intro r r' i hr hr'
    rw [← (searchCacheInode_some hr).2, ← (searchCacheInode_some hr').2]
  · exact Node.At.shown hw hback.cached hfit hdistinct hback.inv.accounts.root
      (hat.mono hclosed.within (fun _ _ hi => hi))

end Calls

theorem image_shows_tree_small : letI := workingDevice
    ∃ s₀ t, createSfs 65536 (fun _ _ => 0) = some s₀ ∧ ran (createImg smallTree) s₀ = some t ∧
    ∃ v link, Volume.mount ⟨0, 0, false, ⟨0, 0, fun _ => 0⟩, 65536, t.image.block, t.inoList,
        fun _ => ⟨diskInode (t.image.block 0), false⟩⟩ = some v ∧
      (Node.dir 0 smallTree).Shown v.sfs link rootIno rootIno := by
  let := workingDevice
  obtain ⟨s₀, t, hcreate, hrun⟩ := smallTree_built
  have hdistinct : (Node.dir 0 smallTree).Distinct := by
    simp [smallTree, Node.Distinct, Entries.Distinct, Entries.names, dot]
    decide
  obtain ⟨v, link, hmount, -, hshown⟩ :=
    image_shows_tree not_faulty_working (by decide) hcreate smallTree_fits hdistinct hrun
      (d := ⟨0, 0, false, ⟨0, 0, fun _ => 0⟩, 65536, t.image.block, t.inoList,
        fun _ => ⟨diskInode (t.image.block 0), false⟩⟩) rfl rfl (by dsimp only)
  exact ⟨s₀, t, hcreate, hrun, v, link, hmount, hshown⟩

end Ucore.Tools
