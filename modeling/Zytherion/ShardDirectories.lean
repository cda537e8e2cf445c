import Zytherion.FileTrees
import Zytherion.ShardCluster

/-!
# The shard store on its disk

A commitment has a directory below the base directory, named by its hexadecimal digits, and
a shard or a signature is a file in it, named by its index. Elsewhere the store is two maps
from commitments and indices to bytes; here it is the tree, with the paths as they are built
and the listing as it is read off the names. Whatever is done to the store, one answers as
the other does. This holds for calls of the system that fail as well: a failed write leaves
the old bytes or the first of the new ones, in the file as in the map, and a failed deletion
what it had not come to.

The empty commitment has no directory of its own: its digits are the empty name, which a
path leaves out, so that it stands for the base directory.
-/
namespace Zytherion.ShardDirectories

open GoCall KeyedStore Application ByteStrings Shards ShardPlacement ShardCluster FileTrees

/-- What is below the base directory. -/
abbrev Disk : Type := FileTree (List UInt8)

/-! The paths. -/

/-- `filepath.Join` leaves out an empty name. -/
def shardDir (commitmentHash : List UInt8) : Path :=
  if encodeToString commitmentHash = "" then [] else [encodeToString commitmentHash]

/-- `%02d`. -/
def twoDigits (i : ℤ) : String := if 0 ≤ i ∧ i < 10 then "0" ++ toString i else toString i

def shardName (shardIndex : ℤ) : String := twoDigits shardIndex ++ ".shard"

def signatureName (shardIndex : ℤ) : String := twoDigits shardIndex ++ ".sig"

def shardPath (commitmentHash : List UInt8) (shardIndex : ℤ) : Path :=
  shardName shardIndex :: shardDir commitmentHash

def signaturePath (commitmentHash : List UInt8) (shardIndex : ℤ) : Path :=
  signatureName shardIndex :: shardDir commitmentHash

/-- `Sscanf` with `%02d.shard`: a number of at most two characters, its sign included, and
what has to follow it. What comes after that is not read. -/
def scanShardName (name : String) : Option ℤ :=
  let cs := name.toList.dropWhile (· == ' ')
  let sign := (cs.take 1).filter fun c => c == '-' || c == '+'
  let digits := ((cs.drop sign.length).take (2 - sign.length)).takeWhile Char.isDigit
  if digits.isEmpty then none
  else if ".shard".toList.isPrefixOf (cs.drop (sign.length + digits.length)) then
    some ((if sign == ['-'] then -1 else 1) * Nat.ofDigitChars 10 digits 0)
  else none

/-! The operations. -/

/-- Failures of the system that have nothing to do with what is there, with what is done by
then: how many directories are not made, how many bytes are written and which entries are
gone. Then which files can be read and asked for, and what the system says about an entry of
the wrong kind. -/
structure Os where
  mkdirAll : Path → Option (Err × Option ℕ)
  writeFile : Path → Option (Err × Option ℕ)
  removeAll : Path → Option (Err × (Path → Bool))
  readDir : Path → Option Err
  readsFile : Path → Bool
  stats : Path → Bool
  wrongKind : Path → Err

abbrev DiskCall (α : Type) : Type := Call Disk Err α

/-- A call of the system: it fails with a part of its work done, or does all of it. -/
def change {δ : Type} (failure : Option (Err × δ)) (partly : δ → Disk → Disk) (refused : Err)
    (f : Disk → Option Disk) : DiskCall Unit := fun t =>
  match failure, f t with
  | some (e, part), _ => .err e (partly part t)
  | none, some t' => .ok () t'
  | none, none => .err refused t

section Store
variable (os : Os)

def makeDir (p : Path) : DiskCall Unit :=
  change (os.mkdirAll p) (fun missing t => t.mkdirSome p missing) (os.wrongKind p)
    fun t => t.mkdirAll p

def write (p : Path) (data : List UInt8) : DiskCall Unit :=
  change (os.writeFile p) (fun written t => t.writeSome p (written.map data.take))
    (os.wrongKind p) fun t => t.writeFile p data

def storeShard (commitmentHash : List UInt8) (shardIndex : ℤ) (data : List UInt8) :
    DiskCall Unit := do
  require (!commitmentHash.isEmpty) (.plain "shard_store: commitmentHash must not be empty")
  require (decide (0 ≤ shardIndex ∧ shardIndex < erasureTotalShards))
    (.plain ("shard_store: invalid shard index " ++ toString shardIndex ++ " (must be 0.." ++
      toString (erasureTotalShards - 1) ++ ")"))
  require (!data.isEmpty) (.plain "shard_store: shard data must not be empty")
  mapErr (.wrap "shard_store: failed to create shard directory")
    (makeDir os (shardDir commitmentHash))
  mapErr (.wrap ("shard_store: failed to write shard " ++ toString shardIndex))
    (write os (shardPath commitmentHash shardIndex) data)

def storeShardSignature (commitmentHash : List UInt8) (shardIndex : ℤ) (sig : List UInt8) :
    DiskCall Unit :=
  if sig.isEmpty then pure ()
  else do
    mapErr (.wrap "shard_store: failed to create shard directory for signature")
      (makeDir os (shardDir commitmentHash))
    mapErr (.wrap ("shard_store: failed to write signature for shard " ++ toString shardIndex))
      (write os (signaturePath commitmentHash shardIndex) sig)

def readFile (p : Path) (t : Disk) : Option (List UInt8) :=
  if os.readsFile p then t.readFile p else none

def loadShard (commitmentHash : List UInt8) (shardIndex : ℤ) : Disk → Option (List UInt8) :=
  readFile os (shardPath commitmentHash shardIndex)

def loadShardSignature (commitmentHash : List UInt8) (shardIndex : ℤ) :
    Disk → Option (List UInt8) :=
  readFile os (signaturePath commitmentHash shardIndex)

def hasShard (commitmentHash : List UInt8) (shardIndex : ℤ) (t : Disk) : Bool :=
  os.stats (shardPath commitmentHash shardIndex) &&
    (t.entry (shardPath commitmentHash shardIndex)).isSome

def deletionFailed (commitmentHash : List UInt8) (e : Err) : Err :=
  .wrap ("shard_store: failed to delete shards for " ++ encodeToString commitmentHash) e

def deleteShards (commitmentHash : List UInt8) : DiskCall Unit :=
  mapErr (deletionFailed commitmentHash) (change (os.removeAll (shardDir commitmentHash))
    (fun gone t => t.removeSome (shardDir commitmentHash) gone)
    (os.wrongKind (shardDir commitmentHash)) fun t => some (t.removeAll (shardDir commitmentHash)))

def listFailed (e : Err) : Err := .wrap "shard_store: failed to list shards" e

def listLocalShards (commitmentHash : List UInt8) (t : Disk) : Except Err (List ℤ) :=
  match os.readDir (shardDir commitmentHash), t.readDir (shardDir commitmentHash) with
  | some e, _ => .error (listFailed e)
  | none, some names => .ok (names.filterMap scanShardName)
  | none, none =>
      -- a directory that does not exist has no shards
      if (t.entry (shardDir commitmentHash)).isNone then .ok []
      else .error (listFailed (os.wrongKind (shardDir commitmentHash)))

/-! The same on the two maps. -/

/-- The outcomes of writing as the maps have them. -/
def environment (env : Environment) : Environment where
  tfheNodeID := env.tfheNodeID
  tfhePeers := env.tfhePeers
  respond := env.respond
  writeShard commitmentHash index :=
    match os.mkdirAll (shardDir commitmentHash), os.writeFile (shardPath commitmentHash index) with
    | some (e, _), _ => .error (.wrap "shard_store: failed to create shard directory" e)
    | none, some (e, _) =>
        .error (.wrap ("shard_store: failed to write shard " ++ toString index) e)
    | none, none => .ok ()
  writeSignature commitmentHash index :=
    match os.mkdirAll (shardDir commitmentHash),
      os.writeFile (signaturePath commitmentHash index) with
    | some (e, _), _ =>
        .error (.wrap "shard_store: failed to create shard directory for signature" e)
    | none, some (e, _) =>
        .error (.wrap ("shard_store: failed to write signature for shard " ++ toString index) e)
    | none, none => .ok ()

/-- What a write that fails leaves under a path. -/
def torn (dir p : Path) (data : List UInt8) : Option (List UInt8) :=
  match os.mkdirAll dir, os.writeFile p with
  | none, some (_, written) => written.map data.take
  | _, _ => none

/-- The same in a map. -/
def tear {κ : Type} [DecidableEq κ] (m : Store κ (List UInt8)) (k : κ) :
    Option (List UInt8) → Store κ (List UInt8)
  | none => m
  | some written => m.set k written

/-- The arguments that `StoreShard` lets through. -/
def storable (commitmentHash : List UInt8) (shardIndex : ℤ) (data : List UInt8) : Bool :=
  !commitmentHash.isEmpty && (decide (0 ≤ shardIndex ∧ shardIndex < erasureTotalShards) &&
    !data.isEmpty)

def tearShard (c : List UInt8) (i : ℤ) (data : List UInt8) (f : NodeFiles) : NodeFiles :=
  if storable c i data then
    { f with shards := tear f.shards (c, i) (torn os (shardDir c) (shardPath c i) data) }
  else f

def tearSignature (c : List UInt8) (i : ℤ) (sig : List UInt8) (f : NodeFiles) : NodeFiles :=
  if sig.isEmpty then f
  else
    { f with signatures := tear f.signatures (c, i)
              (torn os (shardDir c) (signaturePath c i) sig) }

/-- What is left if a part of a directory is gone. -/
def deleteSome (c : List UInt8) (gone : Path → Bool) (f : NodeFiles) : NodeFiles :=
  { f with
    shards := f.shards.restrict fun k => !lost (shardDir c) gone (shardPath k.1 k.2)
    signatures := f.signatures.restrict fun k => !lost (shardDir c) gone (signaturePath k.1 k.2) }

end Store

/-- The indices under which something is stored, in ascending order. -/
def indices (f : NodeFiles) (commitmentHash : List UInt8) : List ℤ :=
  ((List.range erasureTotalShards).map Int.ofNat).filter fun i =>
    (f.shards.get (commitmentHash, i)).isSome

/-! Runs. -/

/-- The methods of the store. -/
inductive Op where
  | store (commitmentHash : List UInt8) (shardIndex : ℤ) (data : List UInt8)
  | storeSignature (commitmentHash : List UInt8) (shardIndex : ℤ) (sig : List UInt8)
  | load (commitmentHash : List UInt8) (shardIndex : ℤ)
  | loadSignature (commitmentHash : List UInt8) (shardIndex : ℤ)
  | has (commitmentHash : List UInt8) (shardIndex : ℤ)
  | list (commitmentHash : List UInt8)
  | delete (commitmentHash : List UInt8)

inductive Answer where
  | done (e : Option Err)
  | bytes (found : Option (List UInt8))
  | flag (found : Bool)
  | listed (found : Except Err (List ℤ))
  | panicked (reason : String)

/-- The error of a method and what it leaves. -/
def settle {σ : Type} (x : Call σ Err Unit) (s : σ) : Answer × σ :=
  match x s with
  | .ok _ s => (.done none, s)
  | .err e s => (.done (some e), s)
  | .panic reason => (.panicked reason, s)

def onDisk (t : Disk) : Os × Op → Answer × Disk
  | (os, .store c i data) => settle (storeShard os c i data) t
  | (os, .storeSignature c i sig) => settle (storeShardSignature os c i sig) t
  | (os, .load c i) => (.bytes (loadShard os c i t), t)
  | (os, .loadSignature c i) => (.bytes (loadShardSignature os c i t), t)
  | (os, .has c i) => (.flag (hasShard os c i t), t)
  | (os, .list c) => (.listed (listLocalShards os c t), t)
  | (os, .delete c) => settle (deleteShards os c) t

def onMaps (env : Environment) (f : NodeFiles) : Os × Op → Answer × NodeFiles
  | (os, .store c i data) =>
      (settle (ShardPlacement.storeShard (environment os env) c i data) f).map id
        (tearShard os c i data)
  | (os, .storeSignature c i sig) =>
      (settle (ShardPlacement.storeShardSignature (environment os env) c i sig) f).map id
        (tearSignature os c i sig)
  | (os, .load c i) =>
      (.bytes (if os.readsFile (shardPath c i) then f.shards.get (c, i) else none), f)
  | (os, .loadSignature c i) =>
      (.bytes (if os.readsFile (signaturePath c i) then f.signatures.get (c, i) else none), f)
  | (os, .has c i) => (.flag (os.stats (shardPath c i) && (f.shards.get (c, i)).isSome), f)
  | (os, .list c) =>
      (.listed (match os.readDir (shardDir c) with
        | some e => .error (listFailed e)
        | none => .ok (indices f c)), f)
  | (os, .delete c) =>
      match os.removeAll (shardDir c) with
      | some (e, gone) => (.done (some (deletionFailed c e)), deleteSome c gone f)
      | none => (.done none, ShardCluster.deleteShards c f)

/-- What is answered in the course of a run. -/
def answers {σ ι α : Type} (perform : σ → ι → α × σ) : σ → List ι → List α
  | _, [] => []
  | s, op :: rest => (perform s op).1 :: answers perform (perform s op).2 rest

/-! The names and paths are told apart. -/

section Names
variable {i j : ℤ} {c c' : List UInt8}

theorem ofDigitChars_twoDigits (n : ℕ) : Nat.ofDigitChars 10 (twoDigits n).toList 0 = n := by
  have hrepr : (toString (n : ℤ)).toList = Nat.toDigits 10 n := by
    show (Nat.repr n).toList = _
    rw [Nat.repr_eq_ofList_toDigits, String.toList_ofList]
  unfold twoDigits
  split_ifs
  · rw [String.toList_append, hrepr]
    exact Nat.ofDigitChars_ten_toDigits
  · rw [hrepr]
    exact Nat.ofDigitChars_ten_toDigits

theorem twoDigits_of_neg (h : i < 0) : twoDigits i = toString i := if_neg (by omega)

theorem dash_notMem_twoDigits (n : ℕ) : '-' ∉ (twoDigits n).toList := by
  have hrepr : '-' ∉ (toString (n : ℤ)).toList := fun h =>
    absurd (isDigit_of_mem_repr h) (by decide)
  unfold twoDigits
  split_ifs
  · rw [String.toList_append, List.mem_append]
    rintro (h | h)
    · exact absurd h (by decide)
    · exact hrepr h
  · exact hrepr

theorem dash_mem_twoDigits (h : i < 0) : '-' ∈ (twoDigits i).toList := by
  obtain ⟨n, rfl⟩ := Int.eq_negSucc_of_lt_zero h
  rw [twoDigits_of_neg h, toString_negSucc]
  exact List.mem_cons_self

theorem twoDigits_inj (h : twoDigits i = twoDigits j) : i = j := by
  rcases lt_or_ge i 0 with hi | hi <;> rcases lt_or_ge j 0 with hj | hj
  · rw [twoDigits_of_neg hi, twoDigits_of_neg hj] at h
    exact toString_int_inj h
  · obtain ⟨n, rfl⟩ := Int.eq_ofNat_of_zero_le hj
    exact absurd (h ▸ dash_mem_twoDigits hi) (dash_notMem_twoDigits n)
  · obtain ⟨n, rfl⟩ := Int.eq_ofNat_of_zero_le hi
    exact absurd (h ▸ dash_mem_twoDigits hj) (dash_notMem_twoDigits n)
  · obtain ⟨m, rfl⟩ := Int.eq_ofNat_of_zero_le hi
    obtain ⟨n, rfl⟩ := Int.eq_ofNat_of_zero_le hj
    have hvalue := congrArg (fun s : String => Nat.ofDigitChars 10 s.toList 0) h
    simp only [ofDigitChars_twoDigits] at hvalue
    rw [hvalue]

theorem shardName_inj (h : shardName i = shardName j) : i = j :=
  twoDigits_inj ((String.append_left_inj _).mp h)

theorem signatureName_inj (h : signatureName i = signatureName j) : i = j :=
  twoDigits_inj ((String.append_left_inj _).mp h)

theorem shardName_ne_signatureName (i j : ℤ) : shardName i ≠ signatureName j := by
  intro h
  have hlast := congrArg (fun s : String => s.toList.getLast?) h
  simp [shardName, signatureName] at hlast

theorem shardPath_ne_signaturePath (c : List UInt8) (i : ℤ) (c' : List UInt8) (j : ℤ) :
    shardPath c i ≠ signaturePath c' j :=
  fun h => shardName_ne_signatureName i j (List.cons.inj h).1

theorem dot_mem_shardName (i : ℤ) : '.' ∈ (shardName i).toList := by
  simp [shardName]

theorem dot_mem_signatureName (i : ℤ) : '.' ∈ (signatureName i).toList := by
  simp [signatureName]

theorem notMem_encodeToString {x : Char} (hx : hexValue x = none) (c : List UInt8) :
    x ∉ (encodeToString c).toList := by
  intro hmem
  have hdigit := encodeToString_digits c x hmem
  rw [hx] at hdigit
  cases hdigit

theorem shardDir_of_ne (h : c ≠ []) : shardDir c = [encodeToString c] :=
  if_neg fun hempty => h (encodeToString_inj (hempty.trans rfl))

theorem shardDir_inj (h : shardDir c = shardDir c') : c = c' := by
  by_cases hc : c = [] <;> by_cases hc' : c' = []
  · rw [hc, hc']
  · rw [hc, shardDir_of_ne hc'] at h
    cases h
  · rw [hc', shardDir_of_ne hc] at h
    cases h
  · rw [shardDir_of_ne hc, shardDir_of_ne hc'] at h
    exact encodeToString_inj (List.cons.inj h).1

/-- What is in a directory is a directory only in the base directory. -/
theorem cons_shardDir {name : String} (h : name :: shardDir c = shardDir c') :
    name = encodeToString c' := by
  by_cases hc' : c' = []
  · rw [hc'] at h
    cases h
  · rw [shardDir_of_ne hc'] at h
    exact (List.cons.inj h).1

theorem cons_ne_shardDir {name : String} (hname : '.' ∈ name.toList) :
    name :: shardDir c ≠ shardDir c' := by
  intro h
  rw [cons_shardDir h] at hname
  exact notMem_encodeToString (by decide) c' hname

theorem suffix_shardDir {q : Path} (h : q <:+ shardDir c) : q = shardDir [] ∨ q = shardDir c := by
  by_cases hc : c = []
  · rw [hc] at h ⊢
    exact .inl (List.suffix_nil.mp h)
  · rw [shardDir_of_ne hc] at h ⊢
    rcases List.suffix_cons_iff.mp h with h | h
    · exact .inr h
    · exact .inl (List.suffix_nil.mp h)

/-- The files that go with the directory of a commitment. -/
theorem shardDir_suffix_cons {name : String} (hname : '.' ∈ name.toList) :
    shardDir c <:+ name :: shardDir c' ↔ c = [] ∨ c' = c := by
  constructor
  · intro h
    rcases List.suffix_cons_iff.mp h with h | h
    · exact absurd h.symm (cons_ne_shardDir hname)
    · rcases suffix_shardDir h with h | h
      · exact .inl (shardDir_inj h)
      · exact .inr (shardDir_inj h).symm
  · rintro (rfl | rfl)
    · exact List.nil_suffix
    · exact List.suffix_cons _ _

end Names

/-! What a tree has to do with the two maps. -/

/-- What the store makes. -/
inductive Placed : Path → Entry (List UInt8) → Prop
  | directory (c : List UInt8) : Placed (shardDir c) .directory
  | shard (c : List UInt8) (i : ℤ) (data : List UInt8) : 0 ≤ i ∧ i < erasureTotalShards →
      Placed (shardPath c i) (.file data)
  | signature (c : List UInt8) (i : ℤ) (sig : List UInt8) : Placed (signaturePath c i) (.file sig)

structure Holds (t : Disk) (f : NodeFiles) : Prop where
  shards : ∀ c i, t.readFile (shardPath c i) = f.shards.get (c, i)
  signatures : ∀ c i, t.readFile (signaturePath c i) = f.signatures.get (c, i)
  placed : ∀ p e, t.entry p = some e → Placed p e

section Placement
variable {p : Path} {e : Entry (List UInt8)} {c : List UInt8} {i : ℤ}

theorem Placed.of_shardDir (h : Placed p e) (hp : p = shardDir c) : e = .directory := by
  cases h with
  | directory => rfl
  | shard => exact absurd hp (cons_ne_shardDir (dot_mem_shardName _))
  | signature => exact absurd hp (cons_ne_shardDir (dot_mem_signatureName _))

theorem Placed.of_shardPath (h : Placed p e) (hp : p = shardPath c i) :
    (∃ data, e = .file data) ∧ 0 ≤ i ∧ i < erasureTotalShards := by
  cases h with
  | directory => exact absurd hp.symm (cons_ne_shardDir (dot_mem_shardName _))
  | shard c' i' data hi =>
      obtain rfl := shardName_inj (List.cons.inj hp).1
      exact ⟨⟨data, rfl⟩, hi⟩
  | signature => exact absurd hp.symm (shardPath_ne_signaturePath _ _ _ _)

theorem Placed.of_signaturePath (h : Placed p e) (hp : p = signaturePath c i) :
    ∃ sig, e = .file sig := by
  cases h with
  | directory => exact absurd hp.symm (cons_ne_shardDir (dot_mem_signatureName _))
  | shard => exact absurd hp (shardPath_ne_signaturePath _ _ _ _)
  | signature c' i' sig => exact ⟨sig, rfl⟩

theorem shardPath_inj {c' : List UInt8} {i' : ℤ} :
    shardPath c i = shardPath c' i' ↔ (c, i) = (c', i') := by
  constructor
  · intro h
    rw [shardDir_inj (List.cons.inj h).2, shardName_inj (List.cons.inj h).1]
  · intro h
    obtain ⟨rfl, rfl⟩ := Prod.mk.inj h
    rfl

theorem signaturePath_inj {c' : List UInt8} {i' : ℤ} :
    signaturePath c i = signaturePath c' i' ↔ (c, i) = (c', i') := by
  constructor
  · intro h
    rw [shardDir_inj (List.cons.inj h).2, signatureName_inj (List.cons.inj h).1]
  · intro h
    obtain ⟨rfl, rfl⟩ := Prod.mk.inj h
    rfl

end Placement

section Steps
variable {t t' : Disk} {f : NodeFiles} {c : List UInt8} {i : ℤ}

theorem empty_holds : Holds FileTree.empty ⟨∅, ∅, []⟩ :=
  ⟨fun _ _ => rfl, fun _ _ => rfl, fun _ _ h => by cases h⟩

/-- A tree with the same files and no entry that is not in place. -/
theorem Holds.of_readFile (h : Holds t f)
    (hfiles : ∀ name c, '.' ∈ name.toList →
      t'.readFile (name :: shardDir c) = t.readFile (name :: shardDir c))
    (hplaced : ∀ p e, t'.entry p = some e → Placed p e) : Holds t' f where
  shards c i := (hfiles _ c (dot_mem_shardName i)).trans (h.shards c i)
  signatures c i := (hfiles _ c (dot_mem_signatureName i)).trans (h.signatures c i)
  placed := hplaced

theorem Holds.mkdirAll (h : Holds t f) (c : List UInt8) : ∃ t', t.mkdirAll (shardDir c) = some t' ∧
    Holds t' f ∧ t'.entry (shardDir c) = some .directory := by
  have hplaced : ∀ q, q <:+ shardDir c → Placed q .directory := by
    intro q hq
    rcases suffix_shardDir hq with rfl | rfl
    · exact .directory []
    · exact .directory c
  obtain ⟨t', ht'⟩ : ∃ t', t.mkdirAll (shardDir c) = some t' := by
    refine FileTree.exists_mkdirAll fun q data hq hfile => ?_
    have hp := h.placed q _ hfile
    rcases suffix_shardDir hq with hq | hq
    · cases hp.of_shardDir hq
    · cases hp.of_shardDir hq
  have hentry := FileTree.entry_mkdirAll ht'
  refine ⟨t', ht', h.of_readFile (fun name c' hname => ?_) (fun p e he => ?_), ?_⟩
  · have hother : ¬ name :: shardDir c' <:+ shardDir c := by
      intro hq
      rcases suffix_shardDir hq with hq | hq
      · exact cons_ne_shardDir hname hq
      · exact cons_ne_shardDir hname hq
    rw [FileTree.readFile, FileTree.readFile, hentry, if_neg hother]
  · rw [hentry] at he
    split_ifs at he with hq
    · obtain rfl := Option.some.inj he
      exact hplaced p hq
    · exact h.placed p e he
  · rw [hentry, if_pos List.suffix_rfl]

theorem Holds.mkdirSome (h : Holds t f) (c : List UInt8) (missing : Option ℕ) :
    Holds (t.mkdirSome (shardDir c) missing) f := by
  cases missing with
  | none => exact h
  | some k =>
      have hmade : ∀ c', (shardDir c).drop k = shardDir c' →
          Holds (t.mkdirSome (shardDir c) (some k)) f := by
        intro c' hp
        obtain ⟨t', ht', h', -⟩ := h.mkdirAll c'
        rwa [FileTree.mkdirSome, hp, ht']
      rcases suffix_shardDir (List.drop_suffix k (shardDir c)) with hp | hp
      · exact hmade [] hp
      · exact hmade c hp

theorem Holds.writeShard (h : Holds t f) (hdir : t.entry (shardDir c) = some .directory)
    (hi : 0 ≤ i ∧ i < erasureTotalShards) (data : List UInt8) :
    ∃ t', t.writeFile (shardPath c i) data = some t' ∧
      Holds t' { f with shards := f.shards.set (c, i) data } := by
  obtain ⟨t', ht'⟩ : ∃ t', t.writeFile (shardPath c i) data = some t' := by
    refine FileTree.exists_put (FileTree.hasDirectory_iff.mpr hdir) fun hplace => ?_
    obtain ⟨⟨_, hfile⟩, -⟩ := (h.placed _ _ hplace).of_shardPath rfl
    cases hfile
  have hread := FileTree.readFile_writeFile ht'
  refine ⟨t', ht', fun c' i' => ?_, fun c' i' => ?_, fun p e he => ?_⟩
  · rw [hread, Store.get_set, h.shards]
    simp only [shardPath_inj]
  · rw [hread, if_neg (shardPath_ne_signaturePath c i c' i').symm, h.signatures]
  · rw [FileTree.entry_put ht'] at he
    split_ifs at he with hp
    · obtain rfl := Option.some.inj he
      exact hp ▸ .shard c i data hi
    · exact h.placed p e he

theorem Holds.writeSignature (h : Holds t f) (hdir : t.entry (shardDir c) = some .directory)
    (i : ℤ) (sig : List UInt8) :
    ∃ t', t.writeFile (signaturePath c i) sig = some t' ∧
      Holds t' { f with signatures := f.signatures.set (c, i) sig } := by
  obtain ⟨t', ht'⟩ : ∃ t', t.writeFile (signaturePath c i) sig = some t' := by
    refine FileTree.exists_put (FileTree.hasDirectory_iff.mpr hdir) fun hplace => ?_
    obtain ⟨_, hfile⟩ := (h.placed _ _ hplace).of_signaturePath rfl
    cases hfile
  have hread := FileTree.readFile_writeFile ht'
  refine ⟨t', ht', fun c' i' => ?_, fun c' i' => ?_, fun p e he => ?_⟩
  · rw [hread, if_neg (shardPath_ne_signaturePath c' i' c i), h.shards]
  · rw [hread, Store.get_set, h.signatures]
    simp only [signaturePath_inj]
  · rw [FileTree.entry_put ht'] at he
    split_ifs at he with hp
    · obtain rfl := Option.some.inj he
      exact hp ▸ .signature c i sig
    · exact h.placed p e he

theorem Holds.removeSome (h : Holds t f) (c : List UInt8) (gone : Path → Bool) :
    Holds (t.removeSome (shardDir c) gone) (deleteSome c gone f) where
  shards c' i := by
    rw [FileTree.readFile_removeSome, h.shards, deleteSome, Store.get_restrict]
  signatures c' i := by
    rw [FileTree.readFile_removeSome, h.signatures, deleteSome, Store.get_restrict]
  placed p e he := by
    rw [FileTree.entry_removeSome] at he
    split_ifs at he
    exact h.placed p e he

/-- What is gone with a directory is what the commitment has in the maps. -/
theorem lost_shardDir {name : String} (hname : '.' ∈ name.toList) (c c' : List UInt8) :
    lost (shardDir c) (fun _ => true) (name :: shardDir c') = (c.isEmpty || c' == c) := by
  rw [lost_all, Bool.eq_iff_iff, List.isSuffixOf_iff_suffix, shardDir_suffix_cons hname]
  simp

theorem deleteSome_all (c : List UInt8) (f : NodeFiles) :
    deleteSome c (fun _ => true) f = ShardCluster.deleteShards c f := by
  have hshard : ∀ c' i, lost (shardDir c) (fun _ => true) (shardPath c' i) =
      (c.isEmpty || c' == c) := fun c' i => lost_shardDir (dot_mem_shardName i) c c'
  have hsignature : ∀ c' i, lost (shardDir c) (fun _ => true) (signaturePath c' i) =
      (c.isEmpty || c' == c) := fun c' i => lost_shardDir (dot_mem_signatureName i) c c'
  simp only [deleteSome, hshard, hsignature, ShardCluster.deleteShards]

theorem Holds.removeAll (h : Holds t f) (c : List UInt8) :
    Holds (t.removeAll (shardDir c)) (ShardCluster.deleteShards c f) :=
  deleteSome_all c f ▸ h.removeSome c fun _ => true

/-! The listing. -/

theorem scan_eq_none {name : String} (h : 'h' ∉ name.toList) : scanShardName name = none := by
  unfold scanShardName
  simp only
  split_ifs with hdigits hprefix
  · rfl
  · refine absurd ?_ h
    have hmem : 'h' ∈ ".shard".toList := by decide
    have hrest := (List.isPrefixOf_iff_prefix.mp hprefix).subset hmem
    exact (List.dropWhile_sublist _).subset (List.mem_of_mem_drop hrest)
  · rfl

theorem scan_shardName (hi : 0 ≤ i ∧ i < erasureTotalShards) :
    scanShardName (shardName i) = some i := by
  have hall : ∀ n : Fin erasureTotalShards, scanShardName (shardName n.val) = some (n.val : ℤ) := by
    decide +kernel
  obtain ⟨n, rfl⟩ := Int.eq_ofNat_of_zero_le hi.1
  exact hall ⟨n, by omega⟩

theorem shardName_mono {j : ℤ} (hi : 0 ≤ i ∧ i < erasureTotalShards)
    (hj : 0 ≤ j ∧ j < erasureTotalShards) (h : shardName i ≤ shardName j) : i ≤ j := by
  have hall : ∀ m n : Fin erasureTotalShards, shardName m.val ≤ shardName n.val → m ≤ n := by
    decide +kernel
  obtain ⟨m, rfl⟩ := Int.eq_ofNat_of_zero_le hi.1
  obtain ⟨n, rfl⟩ := Int.eq_ofNat_of_zero_le hj.1
  have hle := hall ⟨m, by omega⟩ ⟨n, by omega⟩ h
  exact Int.ofNat_le.mpr hle

theorem notMem_signatureName (i : ℤ) : 'h' ∉ (signatureName i).toList := by
  have hnumber : 'h' ∉ (toString i).toList := notMem_toString (by decide) (by decide) i
  unfold signatureName twoDigits
  split_ifs <;> simpa using hnumber

/-- Only shards are recognised, and each by its index. -/
theorem Holds.scan (h : Holds t f) {name : String} {e : Entry (List UInt8)}
    (he : t.entry (name :: shardDir c) = some e) : scanShardName name = some i ↔
      name = shardName i ∧ 0 ≤ i ∧ i < erasureTotalShards := by
  have hplaced := h.placed _ _ he
  generalize hp : name :: shardDir c = p at hplaced
  constructor
  · intro hscan
    cases hplaced with
    | directory c' =>
        rw [scan_eq_none (cons_shardDir hp ▸ notMem_encodeToString (by decide) c')] at hscan
        cases hscan
    | shard c' i' data hi =>
        obtain rfl := (List.cons.inj hp).1
        rw [scan_shardName hi] at hscan
        obtain rfl := Option.some.inj hscan
        exact ⟨rfl, hi⟩
    | signature c' i' sig =>
        rw [scan_eq_none ((List.cons.inj hp).1 ▸ notMem_signatureName i')] at hscan
        cases hscan
  · rintro ⟨rfl, hi⟩
    exact scan_shardName hi

theorem mem_indices {i : ℤ} : i ∈ indices f c ↔
    (0 ≤ i ∧ i < erasureTotalShards) ∧ (f.shards.get (c, i)).isSome := by
  simp only [indices, List.mem_filter, List.mem_map, List.mem_range]
  refine and_congr_left fun _ => ⟨?_, fun hi => ?_⟩
  · rintro ⟨n, hn, rfl⟩
    exact ⟨Int.natCast_nonneg n, Int.ofNat_lt.mpr hn⟩
  · obtain ⟨n, rfl⟩ := Int.eq_ofNat_of_zero_le hi.1
    exact ⟨n, Int.ofNat_lt.mp hi.2, rfl⟩

theorem indices_sorted (f : NodeFiles) (c : List UInt8) : (indices f c).Pairwise (· < ·) := by
  refine List.Pairwise.filter _ (List.pairwise_map.mpr ?_)
  exact List.pairwise_lt_range.imp fun h => Int.ofNat_lt.mpr h

theorem Holds.isSome_shard (h : Holds t f) :
    (t.entry (shardPath c i)).isSome = (f.shards.get (c, i)).isSome := by
  rw [← h.shards, FileTree.readFile]
  cases he : t.entry (shardPath c i) with
  | none => rfl
  | some e =>
      obtain ⟨⟨data, rfl⟩, -⟩ := (h.placed _ _ he).of_shardPath rfl
      rfl

/-- The names, in their order, give the indices in theirs. -/
theorem Holds.listed (h : Holds t f) {names : List String}
    (hnames : t.readDir (shardDir c) = some names) :
    names.filterMap scanShardName = indices f c := by
  have hscan : ∀ name ∈ names, ∀ i, scanShardName name = some i ↔
      name = shardName i ∧ 0 ≤ i ∧ i < erasureTotalShards := by
    intro name hname i
    obtain ⟨e, he⟩ := Option.isSome_iff_exists.mp ((FileTree.mem_readDir hnames name).mp hname)
    exact h.scan he
  have hmem : ∀ i, i ∈ names.filterMap scanShardName ↔ i ∈ indices f c := by
    intro i
    rw [List.mem_filterMap, mem_indices, ← h.isSome_shard]
    constructor
    · rintro ⟨name, hname, hfound⟩
      obtain ⟨rfl, hi⟩ := (hscan name hname i).mp hfound
      exact ⟨hi, (FileTree.mem_readDir hnames _).mp hname⟩
    · rintro ⟨hi, hsome⟩
      exact ⟨shardName i, (FileTree.mem_readDir hnames _).mpr hsome, scan_shardName hi⟩
  have hsorted : (names.filterMap scanShardName).Pairwise (· < ·) := by
    rw [List.pairwise_filterMap]
    have hstrict := (FileTree.readDir_sorted hnames).and (FileTree.readDir_nodup hnames)
    refine hstrict.imp_of_mem fun {a b} ha hb hab i hfound j hfound' => ?_
    obtain ⟨rfl, hi⟩ := (hscan a ha i).mp hfound
    obtain ⟨rfl, hj⟩ := (hscan b hb j).mp hfound'
    refine lt_of_le_of_ne (shardName_mono hi hj hab.1) ?_
    rintro rfl
    exact hab.2 rfl
  have hperm : (names.filterMap scanShardName).Perm (indices f c) :=
    (List.perm_ext_iff_of_nodup (hsorted.imp ne_of_lt) ((indices_sorted f c).imp ne_of_lt)).mpr hmem
  exact hperm.eq_of_pairwise (fun a b _ _ hab hba => absurd hba (lt_asymm hab)) hsorted
    (indices_sorted f c)

theorem Holds.list (h : Holds t f) (os : Os) (c : List UInt8) : listLocalShards os c t =
    match os.readDir (shardDir c) with
    | some e => .error (listFailed e)
    | none => .ok (indices f c) := by
  unfold listLocalShards
  cases os.readDir (shardDir c) with
  | some e => rfl
  | none =>
      cases hnames : t.readDir (shardDir c) with
      | some names => exact congrArg Except.ok (h.listed hnames)
      | none =>
          have habsent : t.entry (shardDir c) = none := by
            cases he : t.entry (shardDir c) with
            | none => rfl
            | some e =>
                rw [(h.placed _ _ he).of_shardDir rfl] at he
                have hsome : (t.readDir (shardDir c)).isSome = true := by
                  rw [FileTree.readDir_isSome, FileTree.hasDirectory_iff, he]
                rw [hnames] at hsome
                cases hsome
          have hnil : indices f c = [] := by
            refine List.eq_nil_iff_forall_not_mem.mpr fun i hi => ?_
            obtain ⟨-, hsome⟩ := mem_indices.mp hi
            rw [← h.isSome_shard] at hsome
            have hdir := t.parents (shardName i) (shardDir c) (Option.isSome_iff_ne_none.mp hsome)
            exact Option.some_ne_none _ (hdir.symm.trans habsent)
          simp only [habsent, hnil, Option.isNone_none, if_true]

end Steps

/-! Runs. -/

section Runs
variable {t : Disk} {f : NodeFiles}

section Settling
variable {σ : Type} {s : σ}

theorem settle_require (b : Bool) (e : Err) (k : Call σ Err Unit) :
    settle (require b e >>= fun _ => k) s =
      if b then settle k s else (.done (some e), s) := by
  cases b <;> rfl

theorem settle_outcome (x : Except Err Unit) (g : σ → σ) :
    settle (ofExcept x >>= fun _ => modifyStore g) s =
      match x with
      | .ok _ => (.done none, g s)
      | .error e => (.done (some e), s) := by
  cases x <;> rfl

end Settling

theorem mapErr_change {δ : Type} (g : Err → Err) (failure : Option (Err × δ))
    (partly : δ → Disk → Disk) (refused : Err) (act : Disk → Option Disk) {t' : Disk}
    (h : act t = some t') :
    mapErr g (change failure partly refused act) t =
      match failure with
      | some (e, part) => .err (g e) (partly part t)
      | none => .ok () t' := by
  rcases failure with - | ⟨e, part⟩ <;> simp [mapErr, change, h]

/-- Two calls of the system, of which the second needs the first. -/
theorem settle_write {os : Os} {p q : Path} {data : List UInt8} {t₁ t₂ : Disk} (g g' : Err → Err)
    (hdir : t.mkdirAll p = some t₁) (hfile : t₁.writeFile q data = some t₂) :
    settle (mapErr g (makeDir os p) >>= fun _ => mapErr g' (write os q data)) t =
      match os.mkdirAll p, os.writeFile q with
      | some (e, missing), _ => (.done (some (g e)), t.mkdirSome p missing)
      | none, some (e, written) =>
          (.done (some (g' e)), t₁.writeSome q (written.map data.take))
      | none, none => (.done none, t₂) := by
  have hmake : mapErr g (makeDir os p) t = _ :=
    mapErr_change g (os.mkdirAll p) _ _ (fun t => t.mkdirAll p) hdir
  have hwrite : mapErr g' (write os q data) t₁ = _ :=
    mapErr_change g' (os.writeFile q) _ _ (fun t => t.writeFile q data) hfile
  cases hp : os.mkdirAll p with
  | some failure =>
      rw [hp] at hmake
      rw [settle, (bind_err _ _).mpr (.inl hmake)]
  | none =>
      rw [hp] at hmake
      rw [settle, bind_of_ok hmake, hwrite]
      cases os.writeFile q <;> rfl

/-- The two answer alike and stay alike. -/
def Agrees (x : Answer × Disk) (y : Answer × NodeFiles) : Prop := x.1 = y.1 ∧ Holds x.2 y.2

/-- A write into the directory of a commitment. In the maps `put` is what it does, all of it
or, after a failure, with the bytes that were written. -/
theorem Holds.written (h : Holds t f) (os : Os) (c : List UInt8) (q : Path) (data : List UInt8)
    (put : List UInt8 → NodeFiles) (g g' : Err → Err)
    (hput : ∀ t₁, Holds t₁ f → t₁.entry (shardDir c) = some .directory →
      ∀ d, ∃ t₂, t₁.writeFile q d = some t₂ ∧ Holds t₂ (put d)) :
    Agrees (settle (mapErr g (makeDir os (shardDir c)) >>= fun _ => mapErr g' (write os q data)) t)
      (match os.mkdirAll (shardDir c), os.writeFile q with
        | some (e, _), _ => (.done (some (g e)), f)
        | none, some (e, written) => (.done (some (g' e)), (written.map data.take).elim f put)
        | none, none => (.done none, put data)) := by
  obtain ⟨t₁, hmade, h₁, hdir⟩ := h.mkdirAll c
  obtain ⟨t₂, hwritten, h₂⟩ := hput t₁ h₁ hdir data
  rw [settle_write g g' hmade hwritten]
  rcases os.mkdirAll (shardDir c) with - | ⟨e, missing⟩
  · rcases os.writeFile q with - | ⟨e, - | n⟩
    · exact ⟨rfl, h₂⟩
    · exact ⟨rfl, h₁⟩
    · obtain ⟨t₃, hcut, h₃⟩ := hput t₁ h₁ hdir (data.take n)
      refine ⟨rfl, ?_⟩
      simpa [FileTree.writeSome, hcut] using h₃
  · exact ⟨rfl, h.mkdirSome c missing⟩

theorem Holds.store (h : Holds t f) (os : Os) (env : Environment) (c : List UInt8) (i : ℤ)
    (data : List UInt8) : Agrees (settle (storeShard os c i data) t)
      ((settle (ShardPlacement.storeShard (environment os env) c i data) f).map id
        (tearShard os c i data)) := by
  unfold storeShard ShardPlacement.storeShard tearShard storable
  simp only [settle_require, settle_outcome]
  cases !c.isEmpty with
  | false => exact ⟨rfl, h⟩
  | true =>
  cases hi : decide (0 ≤ i ∧ i < erasureTotalShards) with
  | false => exact ⟨rfl, h⟩
  | true =>
  cases !data.isEmpty with
  | false => exact ⟨rfl, h⟩
  | true =>
  simp only [if_true]
  convert h.written os c (shardPath c i) data
    (fun d => { f with shards := f.shards.set (c, i) d }) _ _
    fun t₁ h₁ hdir => h₁.writeShard hdir (of_decide_eq_true hi) using 1
  dsimp only [environment, torn]
  rcases os.mkdirAll (shardDir c) with - | failure
  · rcases os.writeFile (shardPath c i) with - | ⟨e, - | n⟩ <;> rfl
  · rfl

theorem Holds.storeSignature (h : Holds t f) (os : Os) (env : Environment) (c : List UInt8) (i : ℤ)
    (sig : List UInt8) : Agrees (settle (storeShardSignature os c i sig) t)
      ((settle (ShardPlacement.storeShardSignature (environment os env) c i sig) f).map id
        (tearSignature os c i sig)) := by
  unfold storeShardSignature ShardPlacement.storeShardSignature tearSignature
  split_ifs with hempty
  · exact ⟨rfl, h⟩
  · rw [settle_outcome]
    convert h.written os c (signaturePath c i) sig
      (fun d => { f with signatures := f.signatures.set (c, i) d }) _ _
      fun t₁ h₁ hdir => h₁.writeSignature hdir i using 1
    dsimp only [environment, torn]
    rcases os.mkdirAll (shardDir c) with - | failure
    · rcases os.writeFile (signaturePath c i) with - | ⟨e, - | n⟩ <;> rfl
    · rfl

theorem Holds.perform (h : Holds t f) (env : Environment) (op : Os × Op) :
    Agrees (onDisk t op) (onMaps env f op) := by
  obtain ⟨os, op⟩ := op
  cases op with
  | store c i data => exact h.store os env c i data
  | storeSignature c i sig => exact h.storeSignature os env c i sig
  | load c i =>
      refine ⟨congrArg Answer.bytes ?_, h⟩
      rw [loadShard, readFile, h.shards]
  | loadSignature c i =>
      refine ⟨congrArg Answer.bytes ?_, h⟩
      rw [loadShardSignature, readFile, h.signatures]
  | has c i =>
      refine ⟨congrArg Answer.flag ?_, h⟩
      rw [hasShard, h.isSome_shard]
  | list c => exact ⟨congrArg Answer.listed (h.list os c), h⟩
  | delete c =>
      have hremove : deleteShards os c t = _ := mapErr_change (deletionFailed c)
        (os.removeAll (shardDir c)) _ _ (fun t => some (t.removeAll (shardDir c))) rfl
      simp only [onDisk, onMaps, settle, hremove]
      rcases os.removeAll (shardDir c) with - | ⟨e, gone⟩
      · exact ⟨rfl, h.removeAll c⟩
      · exact ⟨rfl, h.removeSome c gone⟩

/-- Whatever is done to a store that was empty, whichever calls of the system fail and
whatever they leave behind, the files answer as the two maps do. -/
theorem files_answer_as_maps (env : Environment) (ops : List (Os × Op)) :
    answers onDisk FileTree.empty ops = answers (onMaps env) ⟨∅, ∅, []⟩ ops := by
  suffices hall : ∀ t f, Holds t f → answers onDisk t ops = answers (onMaps env) f ops from
    hall _ _ empty_holds
  induction ops with
  | nil => exact fun _ _ _ => rfl
  | cons op rest ih =>
      intro t f h
      obtain ⟨hanswer, hholds⟩ := h.perform env op
      rw [answers, answers, hanswer, ih _ _ hholds]

end Runs

end Zytherion.ShardDirectories
