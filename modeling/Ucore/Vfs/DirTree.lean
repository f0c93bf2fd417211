import Ucore.Vfs.Inode

/-!
Directory trees, and paths as they are written: a start, then components with slashes between
them. `walk` is what a path is meant to say, and `pathStart` cuts it where it should be cut.
-/
namespace Ucore.Vfs

open Fs (FileType)

/-- What an inode in memory stands for. -/
inductive Place where
  | device (n : ℕ)
  | inode (fs ino : ℕ)
  deriving DecidableEq

/-- The directories of all file systems, as they are on disk. -/
structure DirTree where
  type : ℕ → ℕ → Option FileType
  entry : ℕ → ℕ → List Char → Option ℕ
  kind : ∀ {fs ino t}, type fs ino = some t → t = .dir ∨ t = .file
  inDir : ∀ {fs ino name child}, entry fs ino name = some child → type fs ino = some .dir
  child : ∀ {fs ino name child}, entry fs ino name = some child → ∃ t, type fs child = some t
  noSlash : ∀ {fs ino name child}, entry fs ino name = some child → '/' ∉ name

namespace DirTree

variable (T : DirTree)

/-- One component. A file and a device have no entries. -/
def step (name : List Char) : Place → Option Place
  | .device _ => none
  | .inode fs ino => (T.entry fs ino name).map (Place.inode fs)

/-- One component after the other. -/
def walk : List (List Char) → Place → Option Place
  | [], p => some p
  | name :: names, p => (T.step name p).bind (walk names)

@[simp] theorem walk_nil (p : Place) : T.walk [] p = some p := rfl

theorem walk_one (name : List Char) (p : Place) : T.walk [name] p = T.step name p := by
  unfold walk
  cases T.step name p with
  | none => rfl
  | some q => rfl

theorem step_slash {name : List Char} (h : '/' ∈ name) (p : Place) : T.step name p = none := by
  cases p with
  | device n => rfl
  | inode fs ino =>
    change (T.entry fs ino name).map (Place.inode fs) = none
    cases hentry : T.entry fs ino name with
    | none => rfl
    | some child => exact absurd h (T.noSlash hentry)

end DirTree

/-! Paths. -/

/-- How a start is written. -/
def PathStart.text : PathStart → List Char
  | .curdir => []
  | .device name => name ++ [':']
  | .bootfs => ['/']
  | .curfs => [':']

/-- The components with slashes between them; `gap` says how many more than one. -/
def joinNames (gap : ℕ → ℕ) : List (List Char) → List Char
  | [] => []
  | [name] => name
  | name :: next :: names =>
    name ++ '/' :: (List.replicate (gap names.length) '/' ++ joinNames gap (next :: names))

structure Path where
  start : PathStart
  slashes : ℕ
  names : List (List Char)
  gap : ℕ → ℕ

namespace Path

def body (p : Path) : List Char := joinNames p.gap p.names

def text (p : Path) : List Char := p.start.text ++ (List.replicate p.slashes '/' ++ p.body)

/-- Components are not empty and have no slash, a device has a name, and a relative path does not
look like another one. -/
structure WellFormed (p : Path) : Prop where
  names : ∀ name ∈ p.names, name ≠ [] ∧ '/' ∉ name
  device : ∀ {name}, p.start = .device name → name ≠ [] ∧ ':' ∉ name ∧ '/' ∉ name
  relative : p.start = .curdir → p.slashes = 0 ∧ ∀ name ∈ p.names.head?, ':' ∉ name

end Path

variable {gap : ℕ → ℕ} {names : List (List Char)} {p : Path}

theorem joinNames_cons {name : List Char} : ∃ tail, joinNames gap (name :: names) = name ++ tail ∧
    (tail = [] ∨ ∃ rest, tail = '/' :: rest) := by
  cases names with
  | nil => exact ⟨[], (List.append_nil name).symm, .inl rfl⟩
  | cons next names => exact ⟨_, rfl, .inr ⟨_, rfl⟩⟩

theorem joinNames_ne_nil {name : List Char} (h : name ≠ []) : joinNames gap (name :: names) ≠ [] := by
  obtain ⟨tail, htail, -⟩ := @joinNames_cons gap names name
  rw [htail]
  exact List.append_ne_nil_of_left_ne_nil h tail

/-- The components do not begin with a slash. -/
theorem joinNames_head (h : ∀ name ∈ names, name ≠ [] ∧ '/' ∉ name) :
    (joinNames gap names).head? ≠ some '/' := by
  cases names with
  | nil => exact Option.some_ne_none _ |>.symm
  | cons name names =>
    obtain ⟨tail, htail, -⟩ := @joinNames_cons gap names name
    obtain ⟨hne, hslash⟩ := h name List.mem_cons_self
    cases name with
    | nil => exact absurd rfl hne
    | cons c cs =>
      rw [htail, List.cons_append, List.head?_cons]
      intro heq
      exact hslash (Option.some.inj heq ▸ List.mem_cons_self)

/-- Two components have a slash between them. -/
theorem slash_mem_joinNames (h : 2 ≤ names.length) : '/' ∈ joinNames gap names := by
  match names, h with
  | name :: next :: names, _ => exact List.mem_append_right name List.mem_cons_self

/-- Skipping the slashes of a start. -/
theorem skip_slashes {body : List Char} (k : ℕ) (h : body.head? ≠ some '/') :
    (List.replicate k '/' ++ body).dropWhile (· == '/') = body := by
  induction k with
  | zero =>
    cases body with
    | nil => rfl
    | cons c cs =>
      have hc : (c == '/') = false := by
        rw [beq_eq_false_iff_ne]
        intro heq
        exact h (congrArg some heq)
      rw [List.replicate_zero, List.nil_append, List.dropWhile_cons_of_neg (by rw [hc]; exact Bool.false_ne_true)]
  | succ k ih =>
    rw [List.replicate_succ, List.cons_append, List.dropWhile_cons_of_pos (by decide)]
    exact ih

/-- The loop of `get_device` goes to the first colon or slash. -/
theorem span_name {name rest : List Char} (hcolon : ':' ∉ name) (hslash : '/' ∉ name)
    (hrest : rest = [] ∨ ∃ c tail, rest = c :: tail ∧ (c = ':' ∨ c = '/')) :
    (name ++ rest).span (fun c => c != ':' && c != '/') = (name, rest) := by
  have hname : ∀ c ∈ name, (c != ':' && c != '/') = true := by
    intro c hc
    have h1 : c ≠ ':' := fun heq => hcolon (heq ▸ hc)
    have h2 : c ≠ '/' := fun heq => hslash (heq ▸ hc)
    rw [Bool.and_eq_true]
    exact ⟨bne_iff_ne.mpr h1, bne_iff_ne.mpr h2⟩
  rw [List.span_eq_takeWhile_dropWhile, List.takeWhile_append_of_pos hname,
    List.dropWhile_append_of_pos hname]
  rcases hrest with rfl | ⟨c, tail, rfl, rfl | rfl⟩
  · rw [List.takeWhile_nil, List.append_nil, List.dropWhile_nil]
  · rw [List.takeWhile_cons_of_neg (by decide), List.append_nil,
      List.dropWhile_cons_of_neg (by decide)]
  · rw [List.takeWhile_cons_of_neg (by decide), List.append_nil,
      List.dropWhile_cons_of_neg (by decide)]

namespace Path

theorem body_head (h : p.WellFormed) : p.body.head? ≠ some '/' := joinNames_head h.names

theorem body_eq_nil (h : p.WellFormed) : p.body = [] ↔ p.names = [] := by
  unfold body
  cases hnames : p.names with
  | nil => exact ⟨fun _ => rfl, fun _ => rfl⟩
  | cons name names =>
    have hne := (h.names name (hnames ▸ List.mem_cons_self)).1
    constructor
    · intro heq
      exact absurd heq (joinNames_ne_nil hne)
    · intro heq
      exact absurd heq (List.cons_ne_nil _ _)

/-- A path is cut into its start and its components. -/
theorem pathStart_text (h : p.WellFormed) : pathStart p.text = (p.start, p.body) := by
  have hskip := skip_slashes p.slashes (body_head h)
  unfold pathStart text
  cases hstart : p.start with
  | curdir =>
    obtain ⟨hzero, hcolon⟩ := h.relative hstart
    rw [hzero]
    simp only [List.replicate_zero, List.nil_append, PathStart.text]
    cases hnames : p.names with
    | nil =>
      have hbody : p.body = [] := (body_eq_nil h).mpr hnames
      rw [hbody]
      rfl
    | cons name names =>
      obtain ⟨hne, hslash⟩ := h.names name (hnames ▸ List.mem_cons_self)
      obtain ⟨tail, htail, hend⟩ := @joinNames_cons p.gap names name
      have hbody : p.body = name ++ tail := by
        unfold body
        rw [hnames]
        exact htail
      have hspan : p.body.span (fun c => c != ':' && c != '/') = (name, tail) := by
        rw [hbody]
        refine span_name (hcolon name (by rw [hnames]; exact rfl)) hslash ?_
        rcases hend with hend | ⟨rest, hrest⟩
        · exact .inl hend
        · exact .inr ⟨'/', rest, hrest, .inr rfl⟩
      rw [hspan]
      cases name with
      | nil => exact absurd rfl hne
      | cons c cs =>
        rcases hend with hend | ⟨rest, hrest⟩
        · rw [hend]
        · rw [hrest]
          rfl
  | device name =>
    obtain ⟨hne, hcolon, hslash⟩ := h.device hstart
    have hspan := span_name hcolon hslash
      (.inr ⟨':', List.replicate p.slashes '/' ++ p.body, rfl, .inl rfl⟩)
    unfold PathStart.text
    rw [List.append_assoc, List.singleton_append, hspan]
    cases name with
    | nil => exact absurd rfl hne
    | cons c cs => exact congrArg _ hskip
  | bootfs => exact congrArg _ hskip
  | curfs => exact congrArg _ hskip

end Path
end Ucore.Vfs
