import Ucore.Fs.FileBytes
import Ucore.Tools.Mksfs
import Ucore.Vfs.Dirent

/-!
The directory tree of the host and what it means that a volume holds it: every directory has the
slots of its entries in order, every file its bytes, and two names of one file lead to one inode.
-/
namespace Ucore.Tools

open Fs Libs Library

/-- The number and the name in a block of a directory, as the kernel reads it. -/
def slotOf (blk : Bytes) : ℕ × List UInt8 := ((Vfs.diskEntry blk).ino, (Vfs.diskEntry blk).bytes)

/-- What a volume says of the inodes of `inos`. -/
structure TreeView where
  inos : ℕ → Prop
  type : ℕ → FileType
  size : ℕ → ℕ
  blocks : ℕ → ℕ
  byte : ℕ → ℕ → UInt8
  slots : ℕ → List (ℕ × List UInt8)

/-- What `V` says of its inodes, `W` says too. -/
structure TreeView.Within (V W : TreeView) : Prop where
  inos : ∀ i, V.inos i → W.inos i
  type : ∀ i, V.inos i → W.type i = V.type i
  size : ∀ i, V.inos i → W.size i = V.size i
  blocks : ∀ i, V.inos i → W.blocks i = V.blocks i
  byte : ∀ i, V.inos i → W.byte i = V.byte i
  slots : ∀ i, V.inos i → W.slots i = V.slots i

/-- A regular file with these bytes. -/
structure FileAt (V : TreeView) (ino : ℕ) (c : Content) : Prop where
  inside : V.inos ino
  type : V.type ino = .file
  size : V.size ino = c.size
  blocks : V.blocks ino = blocksFor c.size
  byte : ∀ i < c.size, V.byte ino i = c.bytes i

/-- `sizeof(entry->name)` bytes of an entry are written, and the number is among them. -/
def storedLength : ℕ := entryNameSize - 4

def storedName (name : List UInt8) : List UInt8 := name.take storedLength

mutual

/-- The inode `ino` in the directory `parent` is the node. `link` are the inodes by their numbers
on the host. -/
def Node.At (V : TreeView) (link : ℕ → Option ℕ) (ino parent : ℕ) : Node → Prop
  | .file real content => link real = some ino ∧ FileAt V ino content
  | .dir real entries => link real = some ino ∧ V.inos ino ∧ V.type ino = .dir ∧
      ∃ slots, V.slots ino = (ino, [dot]) :: (parent, [dot, dot]) :: slots ∧
        entries.At V link ino slots

/-- The slots of a directory are the entries. -/
def Entries.At (V : TreeView) (link : ℕ → Option ℕ) (dir : ℕ) :
    Entries → List (ℕ × List UInt8) → Prop
  | .nil, slots => slots = []
  | .cons name node rest, slots =>
    if name.head? = some dot then rest.At V link dir slots
    else ∃ ino slots', slots = (ino, storedName name) :: slots' ∧ node.At V link ino dir ∧
      rest.At V link dir slots'

end

/-- The entries that are not hidden. -/
def Entries.count : Entries → ℕ
  | .nil => 0
  | .cons name _ rest => if name.head? = some dot then rest.count else rest.count + 1

mutual

/-- A tree that the kernel can read: nothing needs more blocks than an inode has places for, and a
name ends where it is terminated. `content` are the regular files of the host. -/
def Node.Fits (content : ℕ → Option Content) : Node → Prop
  | .file real c => content real = some c ∧ c.size ≤ maxBytes
  | .dir real entries => content real = none ∧ entries.count + 2 ≤ maxBlocks ∧ entries.Fits content

def Entries.Fits (content : ℕ → Option Content) : Entries → Prop
  | .nil => True
  | .cons name node rest =>
    (name.head? = some dot ∨ (0 : UInt8) ∉ name ∧ node.Fits content) ∧ rest.Fits content

end

variable {V W : TreeView} {link link' : ℕ → Option ℕ}

theorem TreeView.Within.refl (V : TreeView) : V.Within V :=
  ⟨fun _ h => h, fun _ _ => rfl, fun _ _ => rfl, fun _ _ => rfl, fun _ _ => rfl, fun _ _ => rfl⟩

theorem FileAt.mono {ino : ℕ} {c : Content} (h : FileAt V ino c) (hVW : V.Within W) :
    FileAt W ino c where
  inside := hVW.inos _ h.inside
  type := (hVW.type _ h.inside).trans h.type
  size := (hVW.size _ h.inside).trans h.size
  blocks := (hVW.blocks _ h.inside).trans h.blocks
  byte i hi := by
    rw [hVW.byte _ h.inside]
    exact h.byte i hi

mutual

/-- A tree is still there where nothing that it consists of has changed. -/
theorem Node.At.mono (hVW : V.Within W) (hlink : ∀ r i, link r = some i → link' r = some i)
    {ino parent : ℕ} : {node : Node} → node.At V link ino parent → node.At W link' ino parent
  | .file _ _, h => by
    rw [Node.At] at h ⊢
    exact ⟨hlink _ _ h.1, h.2.mono hVW⟩
  | .dir _ _, h => by
    rw [Node.At] at h ⊢
    obtain ⟨hl, hino, htype, slots, hslots, hentries⟩ := h
    exact ⟨hlink _ _ hl, hVW.inos _ hino, (hVW.type _ hino).trans htype, slots,
      (hVW.slots _ hino).trans hslots, Entries.At.mono hVW hlink hentries⟩

theorem Entries.At.mono (hVW : V.Within W) (hlink : ∀ r i, link r = some i → link' r = some i)
    {dir : ℕ} : {entries : Entries} → {slots : List (ℕ × List UInt8)} →
      entries.At V link dir slots → entries.At W link' dir slots
  | .nil, _, h => by
    rw [Entries.At] at h ⊢
    exact h
  | .cons _ _ _, _, h => by
    rw [Entries.At] at h ⊢
    split at h
    · rename_i hhidden
      rw [if_pos hhidden]
      exact Entries.At.mono hVW hlink h
    · rename_i hshown
      rw [if_neg hshown]
      obtain ⟨ino, slots', hslots, hnode, hrest⟩ := h
      exact ⟨ino, slots', hslots, Node.At.mono hVW hlink hnode, Entries.At.mono hVW hlink hrest⟩

end

/-! Names on disk. -/

theorem storedLength_lt : storedLength < maxFnameLen := by decide

/-- An entry is read back as it was written, but for the end of a long name. -/
theorem slotOf_entryBytes {file : ℕ} {name : List UInt8} {buf : Bytes} (hfile : file < 2 ^ 32)
    (hno : (0 : UInt8) ∉ name) :
    slotOf (fun i => if i < entryNameSize then entryBytes file (strcpy buf name) i else 0) =
      (file, storedName name) := by
  have hbyte : ∀ i < 4, (if i < entryNameSize then entryBytes file (strcpy buf name) i else 0) =
      put32 file i := by
    intro i hi
    have hsize : entryNameSize = 256 := rfl
    unfold entryBytes
    rw [if_pos (by omega), if_pos hi]
  unfold slotOf
  rw [Prod.mk.injEq]
  constructor
  · exact (get32_congr hbyte).trans (get32_put32 hfile)
  · have hmin : name.take storedLength = name.take (min storedLength name.length) := by
      rw [List.take_eq_take_iff]
      omega
    unfold storedName Vfs.DiskEntry.bytes Vfs.diskEntry
    rw [hmin]
    have hsize : entryNameSize = 256 := rfl
    have hstored : storedLength = 252 := rfl
    have hmax : Vfs.maxFnameLen = 255 := rfl
    refine stringIn_eq_take (by omega) (by omega) ?_ (.inr ?_) hno
    · intro i hi
      dsimp only
      rw [if_neg (by omega), if_pos (by omega)]
      unfold entryBytes strcpy
      rw [if_neg (by omega), Nat.add_sub_cancel_left, if_pos (by omega),
        List.getD_eq_getElem?_getD, List.getElem?_eq_getElem (by omega), Option.getD_some]
    · dsimp only
      rw [if_neg (by omega)]
      by_cases hlong : storedLength ≤ name.length
      · rw [if_neg (by omega)]
      · rw [if_pos (by omega)]
        unfold entryBytes strcpy
        rw [if_neg (by omega), Nat.add_sub_cancel_left, if_neg (by omega), if_pos (by omega)]

end Ucore.Tools
