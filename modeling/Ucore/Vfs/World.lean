import Ucore.Vfs.SysOpen
import Ucore.Fs.SfsIo

/-!
The open files over the volumes that they are on: `file_open` with the truncation that it does on
the volume, and `file_read` with the blocks that it reads.
-/
namespace Ucore.Vfs

open Library Call
open Fs (Sfs SfsError SfsDevice Bytes)

/-- The open files and the mounted file systems. -/
structure World where
  vfs : VfsState
  sfs : ℕ → Sfs

abbrev WorldCall (α : Type) := Call World VfsError α

variable [SfsDevice]

def sfsError : SfsError → VfsError
  | .noMem => .noMem
  | .inval => .inval

namespace World

/-- Sizes and truncations are those of the volumes. -/
def io (w : World) (io : VfsIo) : VfsIo :=
  { io with
    diskInode := fun fs ino =>
      match io.diskInode fs ino with
      | .inode type _ nlinks => .inode type ((w.sfs fs).din ino).size nlinks
      | found => found
    truncate := fun fs ino =>
      match Fs.sfsTruncfile ino 0 (w.sfs fs) with
      | some (.error e, t) => .error (sfsError e, (t.inodes ino).dirty)
      | _ => .ok ⟨⟩ }

def onVfs {α : Type} (x : VfsCall α) : WorldCall α := Call.zoom World.vfs (fun s w => { w with vfs := s }) x

def onStore {α : Type} (x : StoreCall α) : WorldCall α := onVfs (Vfs.onStore x)

/-- `sfs_truncfile` to length zero, on the volume and on the inode in memory. Its result is what
`io` has from the same volume. -/
def sfsTruncfile (io : VfsIo) (n : ℕ) (i : VfsInode) (sin : SfsNode) : WorldCall PUnit := fun w =>
  match Fs.sfsTruncfile sin.ino 0 (w.sfs sin.fs) with
  | none => none
  | some (_, t) =>
    onStore (Vfs.sfsTruncfile io n i sin) { w with sfs := Function.update w.sfs sin.fs t }

def vopTruncate (io : VfsIo) (n : ℕ) : WorldCall PUnit := do
  let i ← onStore (inodeCheck n)
  match i.info with
  | .sfs sin => if sin.type = .file then sfsTruncfile io n i sin else Call.panic
  | .device _ => Call.panic

def truncateIf (io : VfsIo) (node flags : ℕ) : WorldCall PUnit :=
  if hasFlag flags oTrunc || hasFlag flags oCreat then vopTruncate io node else pure ⟨⟩

def vfsOpen (io : VfsIo) (r : Roots) (path : List Char) (flags : ℕ) : WorldCall ℕ := do
  onStore (checkFlags flags)
  let node ← onStore (findOrCreate io r path flags)
  Call.onError (onStore (vopOpen node flags)) (onStore (inodeRefDec io node))
  onStore (inodeOpenInc node)
  Call.onError (truncateIf io node flags) (onStore (vfsClose io node))
  pure node

def vfsOpenAt (io : VfsIo) (t : ℕ) (path : List Char) (flags : ℕ) : WorldCall ℕ := do
  let r ← onVfs (Call.read (fun s => s.files.roots t))
  vfsOpen io r path flags

def fileOpen (io : VfsIo) (t : ℕ) (path : List Char) (flags : ℕ) : WorldCall ℕ := do
  let mode ← onVfs (getMode flags)
  let i ← onVfs (fdArrayAlloc t noFd)
  let node ← Call.onError (vfsOpenAt io t path flags) (onVfs (fdArrayFree io t i))
  let pos ← Call.onError (onStore (openPos node flags)) (onVfs (undoOpen io t i node))
  let file ← onVfs (getFile t i)
  onVfs (setFile t i { file with pos := pos, node := some node, readable := mode.1, writable := mode.2 })
  onVfs (fdArrayOpen t i)
  pure file.fd

/-! Reading. The first half of `file_read` is `ioStart`. -/

/-- What a read gives back: its result, the number of bytes, and the buffer. -/
structure ReadResult where
  ret : Except VfsError PUnit
  copied : ℕ
  buf : Bytes

/-- `sfs_read` -/
def sfsRead (sin : SfsNode) (buf : Bytes) (pos len : ℕ) : WorldCall ReadResult := fun w =>
  match Fs.sfsIoNolock (w.sfs sin.fs) sin.ino buf pos len false with
  | none => none
  | some r =>
    some (.ok ⟨r.ret.mapError sfsError, r.alen, r.buf⟩,
      { w with sfs := Function.update w.sfs sin.fs r.sfs })

/-- `vop_read`; a directory has none. `dev` is what a device gives. -/
def vopRead (n : ℕ) (buf : Bytes) (pos len : ℕ) (dev : ReadResult) : WorldCall ReadResult := do
  let i ← onStore (inodeCheck n)
  match i.info with
  | .sfs sin => if sin.type = .file then sfsRead sin buf pos len else Call.panic
  | .device _ => pure dev

/-- The second half of `file_read`, with the position that it started at. -/
def readEnd (io : VfsIo) (p t i : ℕ) (buf : Bytes) (pos len : ℕ) (dev : ReadResult) : WorldCall ℕ := do
  onVfs (onFiles (fun f => { f with ioFile := Function.update f.ioFile p none }))
  let file ← onVfs (getFile t i)
  match file.node with
  | none => Call.panic
  | some n => do
    let r ← vopRead n buf pos len dev
    onVfs (advance t i r.copied)
    onVfs (fdArrayRelease io t i)
    match r.ret with
    | .error e => Call.fail e
    | .ok _ => pure r.copied

end World

/-- An open of a process, or one half of a read. -/
inductive WorldOp where
  | open (p : ℕ) (path : List Char) (flags : ℕ)
  | readStart (p : ℕ) (fd : ℤ)
  | readEnd (p : ℕ) (buf : Bytes) (pos len : ℕ) (dev : World.ReadResult)

namespace WorldOp

def caller : WorldOp → ℕ
  | .open p _ _ => p
  | .readStart p _ => p
  | .readEnd p _ _ _ _ => p

/-- A process inside a read does nothing else. -/
def mayCall (f : Files) (op : WorldOp) : Bool :=
  match op with
  | .readEnd _ _ _ _ _ => true
  | _ => (f.ioFile op.caller).isNone

end WorldOp

namespace World

def perform (io : VfsIo) (t : ℕ) : WorldOp → WorldCall ℕ
  | .open _ path flags => fileOpen io t path flags
  | .readStart p fd => onVfs (zeroOf (ioStart p t fd false))
  | .readEnd p buf pos len dev => do
    let i ← onVfs (Call.read (fun s => s.files.ioFile p))
    match i with
    | none => Call.panic
    | some i => readEnd io p t i buf pos len dev

def step (w : World) (op : WorldOp × VfsIo) : Option World :=
  match w.vfs.files.filesp op.1.caller with
  | none => none
  | some t =>
    if op.1.mayCall w.vfs.files && decide (t ∈ w.vfs.files.tables) then
      (perform (w.io op.2) t op.1 w).map Prod.snd
    else none

end World

variable {w : World} {α β : Type} {p : Prop} {io : VfsIo} {n t i flags : ℕ} {path : List Char}
  {r : Roots} {T : DirTree}

omit [SfsDevice] in
theorem onVfs_ends {x : VfsCall α} {Q : α → World → Prop} {E : VfsError → World → Prop}
    (h : Ends p x w.vfs (fun a s => Q a { w with vfs := s }) (fun e s => E e { w with vfs := s })) :
    Ends p (World.onVfs x) w Q E := Ends.zoom h

theorem Shows.world (h : Shows io T) (w : World) : Shows (w.io io) T := by
  refine ⟨h.search, ?_⟩
  intro fs ino t htype
  obtain ⟨size, nlinks, hdisk, hlinks⟩ := h.load htype
  refine ⟨((w.sfs fs).din ino).size, nlinks, ?_, hlinks⟩
  unfold World.io
  simp only [hdisk]

/-! Without the volumes, a call is the one on open files. -/

/-- What `x` does to the open files, `y` does. -/
def Erases (x : WorldCall α) (y : VfsCall α) : Prop :=
  ∀ w res w', x w = some (res, w') → y w.vfs = some (res, w'.vfs)

omit [SfsDevice] in
/-- Calls on the inodes in a row. -/
theorem onStore_bind (x : StoreCall α) (f : α → StoreCall β) :
    onStore (x >>= f) = onStore x >>= fun a => onStore (f a) := by
  funext s
  change Option.map _ (x.andThen f s.store) = (onStore x).andThen (fun a => onStore (f a)) s
  unfold andThen onStore zoom
  rcases x s.store with _ | ⟨e | a, st⟩
  · rfl
  · rfl
  · rfl

omit [SfsDevice] in
theorem onStore_onError (x : StoreCall α) (c : StoreCall PUnit) :
    onStore (onError x c) = onError (onStore x) (onStore c) := by
  funext s
  unfold Call.onError onStore zoom
  rcases hx : x s.store with _ | ⟨e | a, st⟩
  · simp only [hx, Option.map_none]
  · simp only [hx, Option.map_some, andThen]
    rcases c st with _ | ⟨e' | u, st'⟩
    · rfl
    · rfl
    · rfl
  · simp only [hx, Option.map_some]

namespace Erases

omit [SfsDevice] in
theorem onVfs (y : VfsCall α) : Erases (World.onVfs y) y := by
  intro w res w' hrun
  unfold World.onVfs zoom at hrun
  obtain ⟨⟨res', s⟩, hy, heq⟩ := Option.map_eq_some_iff.mp hrun
  cases heq
  exact hy

omit [SfsDevice] in
theorem pure (a : α) : Erases (Pure.pure a : WorldCall α) (Pure.pure a) := by
  intro w res w' hrun
  obtain ⟨hres, hw⟩ := Prod.mk.inj (Option.some.inj hrun)
  rw [← hres, ← hw]
  rfl

omit [SfsDevice] in
theorem panic {y : VfsCall α} : Erases (Call.panic : WorldCall α) y := fun _ _ _ hrun =>
  absurd hrun.symm (Option.some_ne_none _)

omit [SfsDevice] in
theorem bind {x : WorldCall α} {y : VfsCall α} {f : α → WorldCall β} {g : α → VfsCall β}
    (h : Erases x y) (hf : ∀ a, Erases (f a) (g a)) : Erases (x >>= f) (y >>= g) := by
  intro w res w' hrun
  change x.andThen f w = _ at hrun
  change y.andThen g w.vfs = _
  unfold andThen at hrun ⊢
  rcases hx : x w with _ | ⟨e | a, w₁⟩
  · rw [hx] at hrun
    exact absurd hrun.symm (Option.some_ne_none _)
  · rw [hx] at hrun
    obtain ⟨hres, hw⟩ := Prod.mk.inj (Option.some.inj hrun)
    simp only [h w _ w₁ hx, ← hres, ← hw]
  · rw [hx] at hrun
    simp only [h w _ w₁ hx]
    exact hf a w₁ res w' hrun

omit [SfsDevice] in
theorem onError {x : WorldCall α} {y : VfsCall α} {c : WorldCall PUnit} {d : VfsCall PUnit}
    (h : Erases x y) (hc : Erases c d) : Erases (Call.onError x c) (Call.onError y d) := by
  intro w res w' hrun
  unfold Call.onError at hrun ⊢
  rcases hx : x w with _ | ⟨e | a, w₁⟩
  · rw [hx] at hrun
    exact absurd hrun.symm (Option.some_ne_none _)
  · rw [hx] at hrun
    simp only [h w _ w₁ hx]
    have hfail : ∀ u : PUnit, Erases (Call.fail e : WorldCall α) (Call.fail e) := by
      intro _ v res' v' hv
      obtain ⟨hres, hw⟩ := Prod.mk.inj (Option.some.inj hv)
      rw [← hres, ← hw]
      rfl
    exact hc.bind hfail w₁ res w' hrun
  · rw [hx] at hrun
    obtain ⟨hres, hw⟩ := Prod.mk.inj (Option.some.inj hrun)
    simp only [h w _ w₁ hx, ← hres, ← hw]

theorem sfsTruncfile {inode : VfsInode} {sin : SfsNode} :
    Erases (World.sfsTruncfile io n inode sin) (Vfs.onStore (Vfs.sfsTruncfile io n inode sin)) := by
  intro w res w' hrun
  unfold World.sfsTruncfile at hrun
  rcases hcut : Fs.sfsTruncfile sin.ino 0 (w.sfs sin.fs) with _ | ⟨e, v⟩
  · rw [hcut] at hrun
    exact absurd hrun.symm (Option.some_ne_none _)
  · rw [hcut] at hrun
    exact onVfs _ { w with sfs := Function.update w.sfs sin.fs v } res w' hrun

theorem vopTruncate : Erases (World.vopTruncate io n) (Vfs.onStore (Vfs.vopTruncate io n)) := by
  unfold World.vopTruncate Vfs.vopTruncate
  rw [onStore_bind]
  refine (onVfs _).bind (fun inode => ?_)
  cases inode.info with
  | device dev => exact panic
  | sfs sin =>
    simp only
    by_cases htype : sin.type = .file
    · rw [if_pos htype, if_pos htype]
      exact sfsTruncfile
    · rw [if_neg htype]
      exact panic

theorem truncateIf : Erases (World.truncateIf io n flags) (Vfs.onStore (Vfs.truncateIf io n flags)) := by
  unfold World.truncateIf Vfs.truncateIf
  by_cases hcut : (hasFlag flags oTrunc || hasFlag flags oCreat) = true
  · rw [if_pos hcut, if_pos hcut]
    exact vopTruncate
  · rw [if_neg hcut, if_neg hcut]
    exact pure _

theorem vfsOpen : Erases (World.vfsOpen io r path flags) (Vfs.onStore (Vfs.vfsOpen io r path flags)) := by
  unfold World.vfsOpen Vfs.vfsOpen
  rw [onStore_bind]
  refine (onVfs _).bind (fun _ => ?_)
  rw [onStore_bind]
  refine (onVfs _).bind (fun node => ?_)
  rw [onStore_bind, onStore_onError]
  refine ((onVfs _).onError (onVfs _)).bind (fun _ => ?_)
  rw [onStore_bind]
  refine (onVfs _).bind (fun _ => ?_)
  rw [onStore_bind, onStore_onError]
  exact (truncateIf.onError (onVfs _)).bind (fun _ => pure _)

theorem fileOpen : Erases (World.fileOpen io t path flags) (Vfs.fileOpen io t path flags) := by
  unfold World.fileOpen Vfs.fileOpen World.vfsOpenAt Vfs.vfsOpenAt
  refine (onVfs _).bind (fun mode => (onVfs _).bind (fun i => ?_))
  refine (Erases.onError ((onVfs _).bind (fun r => vfsOpen)) (onVfs _)).bind (fun node => ?_)
  refine (Erases.onError (onVfs _) (onVfs _)).bind (fun pos => ?_)
  refine (onVfs _).bind (fun file => (onVfs _).bind (fun _ => (onVfs _).bind (fun _ => pure _)))

end Erases
end Ucore.Vfs
