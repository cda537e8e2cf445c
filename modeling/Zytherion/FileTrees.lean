import Zytherion.KeyedStore
import Mathlib.Data.List.Infix
import Mathlib.Data.List.Sort
import Mathlib.Data.String.Basic

/-!
# Trees of directories and files

A path is a list of names, the innermost first; the empty path is the directory in which
everything else is, which may be missing as well. Whatever is there is in a directory: the
type of trees has no other values, and every operation checks what it needs. Of an
operation that fails a part may be done: some of the directories are made, the first bytes
are written, some of the entries are gone.
-/
namespace Zytherion.FileTrees

open KeyedStore

abbrev Path : Type := List String

/-- With a directory goes what is in it. -/
def lost (p : Path) (gone : Path → Bool) (q : Path) : Bool :=
  q.tails.any fun r => p.isSuffixOf r && gone r

theorem lost_iff {p q : Path} {gone : Path → Bool} :
    lost p gone q = true ↔ ∃ r, r <:+ q ∧ p <:+ r ∧ gone r = true := by
  simp [lost, List.any_eq_true, List.mem_tails]

theorem lost_all (p q : Path) : lost p (fun _ => true) q = p.isSuffixOf q := by
  rw [Bool.eq_iff_iff, lost_iff, List.isSuffixOf_iff_suffix]
  constructor
  · rintro ⟨r, hr, hp, -⟩
    exact hp.trans hr
  · intro h
    exact ⟨q, List.suffix_rfl, h, rfl⟩

inductive Entry (B : Type) where
  | directory
  | file (content : B)

def Entry.isDirectory {B : Type} : Entry B → Bool
  | .directory => true
  | .file _ => false

structure FileTree (B : Type) where
  entries : Store Path (Entry B)
  parents : ∀ name p, entries.get (name :: p) ≠ none → entries.get p = some .directory

namespace FileTree
variable {B : Type}

def empty : FileTree B := ⟨∅, fun _ _ h => absurd rfl h⟩

def entry (t : FileTree B) (p : Path) : Option (Entry B) := t.entries.get p

def hasDirectory (t : FileTree B) (p : Path) : Bool := (t.entry p).any Entry.isDirectory

theorem hasDirectory_iff {t : FileTree B} {p : Path} :
    t.hasDirectory p = true ↔ t.entry p = some .directory := by
  unfold hasDirectory
  cases t.entry p with
  | none => simp
  | some e => cases e <;> simp [Entry.isDirectory]

/-- There is a directory for the entry. -/
def hasParent (t : FileTree B) : Path → Bool
  | [] => true
  | _ :: p => t.hasDirectory p

/-- The entry has a place, and is not a file in the place of a directory. -/
def fits (t : FileTree B) (p : Path) (e : Entry B) : Bool :=
  t.hasParent p && (e.isDirectory || !t.hasDirectory p)

theorem put_parents {t : FileTree B} {p : Path} {e : Entry B} (h : t.fits p e = true) :
    ∀ name q, (t.entries.set p e).get (name :: q) ≠ none →
      (t.entries.set p e).get q = some .directory := by
  intro name q hq
  rw [fits, Bool.and_eq_true] at h
  rw [Store.get_set] at hq ⊢
  split_ifs at hq with hpath
  · -- the new entry itself: its parent is another path
    rw [if_neg (fun heq => List.cons_ne_self name q (hpath.trans heq.symm))]
    rw [← hpath] at h
    exact hasDirectory_iff.mp h.1
  · have hparent := t.parents name q hq
    split_ifs with heq
    · subst heq
      have hdir : t.hasDirectory q = true := hasDirectory_iff.mpr hparent
      have he : e.isDirectory = true := by simpa [hdir] using h.2
      cases e with
      | directory => rfl
      | file content => cases he
    · exact hparent

def put (t : FileTree B) (p : Path) (e : Entry B) : Option (FileTree B) :=
  if h : t.fits p e then some ⟨t.entries.set p e, put_parents h⟩ else none

/-- `os.MkdirAll`. -/
def mkdirAll (t : FileTree B) : Path → Option (FileTree B)
  | [] => if t.hasDirectory [] then some t else t.put [] .directory
  | name :: p => do
      let t ← t.mkdirAll p
      match t.entry (name :: p) with
      | none => t.put (name :: p) .directory
      | some .directory => some t
      | some (.file _) => none

/-- What `os.MkdirAll` leaves if it fails: nothing is made, or all but the innermost
directories. -/
def mkdirSome (t : FileTree B) (p : Path) : Option ℕ → FileTree B
  | none => t
  | some missing => (t.mkdirAll (p.drop missing)).getD t

/-- `os.WriteFile`. -/
def writeFile (t : FileTree B) (p : Path) (content : B) : Option (FileTree B) :=
  t.put p (.file content)

/-- What `os.WriteFile` leaves if it fails: the file as it was, or with what was written. -/
def writeSome (t : FileTree B) (p : Path) : Option B → FileTree B
  | none => t
  | some written => (t.writeFile p written).getD t

/-- `os.ReadFile`. -/
def readFile (t : FileTree B) (p : Path) : Option B :=
  match t.entry p with
  | some (.file content) => some content
  | _ => none

theorem removeSome_parents (t : FileTree B) (p : Path) (gone : Path → Bool) :
    ∀ name q, (t.entries.restrict fun q => !lost p gone q).get (name :: q) ≠ none →
      (t.entries.restrict fun q => !lost p gone q).get q = some .directory := by
  intro name q hq
  rw [Store.get_restrict] at hq ⊢
  split_ifs at hq with hkept
  · have hparent := t.parents name q hq
    rw [if_pos, hparent]
    rw [Bool.not_eq_true', ← Bool.not_eq_true, lost_iff] at hkept ⊢
    rintro ⟨r, hr, hgone⟩
    exact hkept ⟨r, hr.trans (List.suffix_cons name q), hgone⟩
  · exact absurd rfl hq

/-- What `os.RemoveAll` leaves if it fails: whatever it had not come to. -/
def removeSome (t : FileTree B) (p : Path) (gone : Path → Bool) : FileTree B :=
  ⟨t.entries.restrict fun q => !lost p gone q, t.removeSome_parents p gone⟩

/-- `os.RemoveAll`: the entry, if it is there, with everything in it. -/
def removeAll (t : FileTree B) (p : Path) : FileTree B := t.removeSome p fun _ => true

def nameIn (p : Path) : Path → Option String
  | [] => none
  | name :: q => if q = p then some name else none

/-- `os.ReadDir`: the names in a directory in their order. -/
def readDir (t : FileTree B) (p : Path) : Option (List String) :=
  if t.hasDirectory p then
    some ((t.entries.entries.filterMap fun e => nameIn p e.1).insertionSort (· ≤ ·))
  else none

/-! What the operations leave. -/

section Frames
variable {t t' : FileTree B} {p q : Path} {e : Entry B} {content : B}

theorem entry_put (h : t.put p e = some t') : t'.entry q = if q = p then some e else t.entry q := by
  unfold put at h
  split_ifs at h
  obtain rfl := Option.some.inj h
  exact Store.get_set ..

theorem exists_put (hparent : t.hasParent p = true)
    (hplace : t.entry p = some .directory → e = .directory) : ∃ t', t.put p e = some t' := by
  have hfits : t.fits p e = true := by
    rw [fits, hparent, Bool.true_and]
    by_cases hdir : t.hasDirectory p = true
    · rw [hplace (hasDirectory_iff.mp hdir)]
      rfl
    · simp [hdir]
  exact ⟨_, dif_pos hfits⟩

theorem readFile_writeFile (h : t.writeFile p content = some t') (q : Path) :
    t'.readFile q = if q = p then some content else t.readFile q := by
  rw [readFile, entry_put h]
  split_ifs <;> rfl

/-- Only missing directories are made. -/
theorem entry_mkdirAll {p : Path} (h : t.mkdirAll p = some t') (q : Path) :
    t'.entry q = if q <:+ p then some .directory else t.entry q := by
  induction p generalizing t' with
  | nil =>
      unfold mkdirAll at h
      simp only [List.suffix_nil]
      split_ifs at h with hdir
      · obtain rfl := Option.some.inj h
        split_ifs with hq
        · exact hq ▸ hasDirectory_iff.mp hdir
        · rfl
      · exact entry_put h
  | cons name p ih =>
      obtain ⟨t₁, hparent, h⟩ := Option.bind_eq_some_iff.mp h
      have hrest := ih hparent
      simp only [List.suffix_cons_iff]
      have hput : ∀ t', t₁.put (name :: p) .directory = some t' → t'.entry q =
          if q = name :: p ∨ q <:+ p then some .directory else t.entry q := by
        intro t' hput
        rw [entry_put hput, hrest]
        split_ifs <;> simp_all
      split at h
      · exact hput t' h
      · rename_i hdir
        obtain rfl := Option.some.inj h
        by_cases hq : q = name :: p
        · rw [hq, hdir, if_pos (.inl rfl)]
        · rw [hrest]
          simp [hq]
      · cases h

theorem exists_mkdirAll (h : ∀ q content, q <:+ p → t.entry q ≠ some (.file content)) :
    ∃ t', t.mkdirAll p = some t' := by
  induction p with
  | nil =>
      unfold mkdirAll
      split_ifs with hdir
      · exact ⟨t, rfl⟩
      · exact exists_put rfl fun _ => rfl
  | cons name p ih =>
      obtain ⟨t₁, hparent⟩ := ih fun q content hq =>
        h q content (hq.trans (List.suffix_cons name p))
      have hrest := entry_mkdirAll hparent
      rw [mkdirAll, hparent, Option.bind_eq_bind, Option.bind_some]
      have hself : t₁.entry (name :: p) = t.entry (name :: p) := by
        rw [hrest, if_neg (fun hs => by simpa using hs.length_le)]
      have hdir : t₁.hasDirectory p = true := by
        rw [hasDirectory_iff, hrest, if_pos List.suffix_rfl]
      split
      · exact exists_put hdir fun _ => rfl
      · exact ⟨t₁, rfl⟩
      · rename_i content hfile
        exact absurd (hself ▸ hfile) (h _ content List.suffix_rfl)

theorem entry_removeSome (t : FileTree B) (p : Path) (gone : Path → Bool) (q : Path) :
    (t.removeSome p gone).entry q = if !lost p gone q then t.entry q else none :=
  Store.get_restrict ..

theorem readFile_removeSome (t : FileTree B) (p : Path) (gone : Path → Bool) (q : Path) :
    (t.removeSome p gone).readFile q = if !lost p gone q then t.readFile q else none := by
  rw [readFile, entry_removeSome]
  split_ifs <;> rfl

theorem nameIn_iff {name : String} : nameIn p q = some name ↔ q = name :: p := by
  cases q with
  | nil => simp [nameIn]
  | cons n q =>
      simp only [nameIn, Option.ite_none_right_eq_some, Option.some.injEq, List.cons.injEq]
      tauto

end Frames

/-! What is listed. -/

section Listing
variable {t : FileTree B} {p : Path} {names : List String}

theorem readDir_isSome : (t.readDir p).isSome = t.hasDirectory p := by
  unfold readDir
  split_ifs with h <;> simp [h]

theorem mem_readDir (h : t.readDir p = some names) (name : String) :
    name ∈ names ↔ (t.entry (name :: p)).isSome := by
  unfold readDir at h
  split_ifs at h
  obtain rfl := Option.some.inj h
  rw [List.mem_insertionSort, List.mem_filterMap]
  constructor
  · rintro ⟨e, he, hname⟩
    have hget : t.entries.get e.1 = some e.2 := AList.mem_lookup_iff.mpr he
    rw [nameIn_iff.mp hname] at hget
    rw [entry, hget]
    rfl
  · intro hsome
    obtain ⟨e, he⟩ := Option.isSome_iff_exists.mp hsome
    exact ⟨⟨name :: p, e⟩, AList.mem_lookup_iff.mp he, nameIn_iff.mpr rfl⟩

theorem readDir_sorted (h : t.readDir p = some names) : names.Pairwise (· ≤ ·) := by
  unfold readDir at h
  split_ifs at h
  obtain rfl := Option.some.inj h
  exact List.pairwise_insertionSort _ _

theorem readDir_nodup (h : t.readDir p = some names) : names.Nodup := by
  unfold readDir at h
  split_ifs at h
  obtain rfl := Option.some.inj h
  refine (List.perm_insertionSort _ _).nodup_iff.mpr ?_
  have hkeys : (t.entries.entries.map Sigma.fst).Nodup := t.entries.nodupKeys
  have hmap : (t.entries.entries.filterMap fun e => nameIn p e.1) =
      (t.entries.entries.map Sigma.fst).filterMap (nameIn p) := by
    rw [List.filterMap_map]
    rfl
  rw [hmap]
  refine hkeys.filterMap fun a b name ha hb => ?_
  rw [nameIn_iff.mp ha, nameIn_iff.mp hb]

end Listing

end FileTree

end Zytherion.FileTrees
