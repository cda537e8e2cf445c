import Zytherion.CallFrames
import Zytherion.Application

/-!
# The node's keys over restarts

A process takes its key pair from a cache, from two files, or from a new
generation that it writes to the files. Each file is written on its own, and a
write that fails is only warned about; the next process reads whatever stands
there, and takes any two non-empty files for a pair.

As long as nothing fails every process returns one pair. Any single kind of
failure is enough for a pair that was never generated, or for the pair a caller
already has to be replaced: a read, a write that is refused or cut short, a
process that ends between the two writes, an empty key.
-/
namespace Zytherion.NodeKeys

open GoCall Application

structure TFHEKeyPair where
  clientKey : List UInt8
  serverKey : List UInt8
deriving DecidableEq

/-- The contents of the two files, either of which may be missing. -/
structure Disk where
  client : Option (List UInt8)
  server : Option (List UInt8)

/-- What becomes of a file that is written: all of it, nothing, or the first bytes. -/
inductive WriteResult where
  | written
  | refused
  | cut (n : ℕ)

def WriteResult.contents (old : Option (List UInt8)) (bytes : List UInt8) :
    WriteResult → Option (List UInt8)
  | written => some bytes
  | refused => old
  | cut n => some (bytes.take n)

/-- What the surroundings of a call decide. -/
structure Attempt where
  readsClient : Bool
  readsServer : Bool
  generated : Except Err TFHEKeyPair
  clientWrite : WriteResult
  serverWrite : WriteResult

/-- A node with the cache of its process. -/
structure Node where
  disk : Disk
  cache : TFHEKeyPair

/-- Two contents that are taken for a pair. -/
def foundKeys (ck sk : Option (List UInt8)) : Option TFHEKeyPair :=
  match ck, sk with
  | some ck, some sk => if 0 < ck.length ∧ 0 < sk.length then some ⟨ck, sk⟩ else none
  | _, _ => none

def Disk.pair (d : Disk) : Option TFHEKeyPair := foundKeys d.client d.server

section Calls
variable (a : Attempt)

def Attempt.readFile (reads : Bool) (contents : Option (List UInt8)) : Option (List UInt8) :=
  if reads then contents else none

/-- Both reads return without an error. -/
def Attempt.readable (d : Disk) : Bool :=
  (readFile a.readsClient d.client).isSome && (readFile a.readsServer d.server).isSome

def Attempt.loaded (d : Disk) : Option TFHEKeyPair :=
  foundKeys (readFile a.readsClient d.client) (readFile a.readsServer d.server)

def Attempt.writeClient (kp : TFHEKeyPair) (d : Disk) : Disk :=
  { d with client := a.clientWrite.contents d.client kp.clientKey }

def Attempt.writeServer (kp : TFHEKeyPair) (d : Disk) : Disk :=
  { d with server := a.serverWrite.contents d.server kp.serverKey }

def ensureNodeKeys : Call Node Err TFHEKeyPair := do
  let cache ← gets Node.cache
  if 0 < cache.clientKey.length then return cache
  else
    let found ← gets fun n => a.loaded n.disk
    match found with
    | some keys =>
        modifyStore fun n => { n with cache := keys }
        return keys
    | none =>
        let kp ← mapErr (.wrap "tfhe: key generation failed") (ofExcept a.generated)
        modifyStore fun n => { n with disk := a.writeClient kp n.disk }
        modifyStore fun n => { n with disk := a.writeServer kp n.disk }
        modifyStore fun n => { n with cache := kp }
        return kp

/-- The pair a call generates, if it comes to that. -/
def Attempt.made (n : Node) : Option TFHEKeyPair :=
  if 0 < n.cache.clientKey.length then none
  else match a.loaded n.disk with
    | some _ => none
    | none => a.generated.toOption

end Calls

/-- A process ends and another one begins, between calls or within one, after the
client key was written. -/
inductive Event where
  | restart
  | call (a : Attempt)
  | killed (a : Attempt)

/-- What a call returned, in which process, and whether it could read the files. -/
structure Answer where
  process : ℕ
  readable : Bool
  pair : Option TFHEKeyPair
deriving DecidableEq

/-- A node, the answers its processes have given and the pairs they have generated. -/
structure Trace where
  node : Node
  process : ℕ
  answers : List Answer
  made : List TFHEKeyPair

def noKeys : TFHEKeyPair := ⟨[], []⟩

def start (disk : Disk) : Trace := ⟨⟨disk, noKeys⟩, 0, [], []⟩

def step (t : Trace) : Event → Trace
  | .restart => { t with node := { t.node with cache := noKeys }, process := t.process + 1 }
  | .call a =>
      { t with
        node := (ensureNodeKeys a t.node).left.getD t.node
        answers := t.answers ++ [⟨t.process, a.readable t.node.disk,
          (ensureNodeKeys a t.node).returned⟩]
        made := t.made ++ (a.made t.node).toList }
  | .killed a =>
      { t with
        node := ⟨match a.made t.node with
          | some kp => a.writeClient kp t.node.disk
          | none => t.node.disk, noKeys⟩
        process := t.process + 1
        made := t.made ++ (a.made t.node).toList }

/-- Every pair was generated in one go or was there from the beginning. -/
def Genuine (initial : Disk) (t : Trace) : Prop :=
  ∀ ans ∈ t.answers, ans.pair = none ∨ ans.pair ∈ t.made.map some ∨ ans.pair = initial.pair

/-- A pair that one process returned is returned by every later one that can read
the files. -/
def Lasting (answers : List Answer) : Prop :=
  answers.Pairwise fun x y =>
    x.pair ≠ none → x.process < y.process → y.readable = true → y.pair = x.pair

def Sound (initial : Disk) (t : Trace) : Prop := Genuine initial t ∧ Lasting t.answers

instance (initial : Disk) (t : Trace) : Decidable (Genuine initial t) :=
  inferInstanceAs (Decidable (∀ ans ∈ t.answers, _))

instance (answers : List Answer) : Decidable (Lasting answers) :=
  inferInstanceAs (Decidable (answers.Pairwise _))

instance (initial : Disk) (t : Trace) : Decidable (Sound initial t) :=
  inferInstanceAs (Decidable (_ ∧ _))

inductive KeyFile where
  | client
  | server
deriving DecidableEq

inductive Fault where
  | read (file : KeyFile)
  | refused (file : KeyFile)
  | cut (file : KeyFile)
  | empty (file : KeyFile)
  | killed
deriving DecidableEq

def WriteResult.faults (file : KeyFile) : WriteResult → List Fault
  | written => []
  | refused => [.refused file]
  | cut _ => [.cut file]

/-- The keys of a generated pair that are empty. -/
def emptyKeys : Except Err TFHEKeyPair → List KeyFile
  | .ok kp => (if kp.clientKey = [] then [.client] else []) ++
      if kp.serverKey = [] then [.server] else []
  | .error _ => []

def Attempt.faults (a : Attempt) : List Fault :=
  (if a.readsClient then [] else [.read .client]) ++
    (if a.readsServer then [] else [.read .server]) ++
    a.clientWrite.faults .client ++ a.serverWrite.faults .server ++
    (emptyKeys a.generated).map .empty

def Event.faults : Event → List Fault
  | restart => []
  | call a => a.faults
  | killed a => .killed :: a.faults

/-- Nothing fails but what is allowed to. Generation may return an error. -/
def Allowed (F : Fault → Prop) (events : List Event) : Prop :=
  ∀ e ∈ events, ∀ f ∈ e.faults, F f

section Breaking

/-- Two pairs of keys of two bytes. -/
def firstPair : TFHEKeyPair := ⟨[1, 1], [2, 2]⟩

def secondPair : TFHEKeyPair := ⟨[3, 3], [4, 4]⟩

/-- Nothing fails and the pair is generated. -/
def healthy (kp : TFHEKeyPair) : Attempt := ⟨true, true, .ok kp, .written, .written⟩

def unread (kp : TFHEKeyPair) : KeyFile → Attempt
  | .client => { healthy kp with readsClient := false }
  | .server => { healthy kp with readsServer := false }

def badWrite (kp : TFHEKeyPair) (r : WriteResult) : KeyFile → Attempt
  | .client => { healthy kp with clientWrite := r }
  | .server => { healthy kp with serverWrite := r }

def withoutKey (kp : TFHEKeyPair) : KeyFile → TFHEKeyPair
  | .client => { kp with clientKey := [] }
  | .server => { kp with serverKey := [] }

/-- Files and a history in which nothing else fails. -/
def breaking : Fault → Disk × List Event
  | .read file => (⟨some [9], some [9]⟩, [.call (healthy firstPair), .restart,
      .call (unread firstPair file), .restart, .call (healthy secondPair)])
  | .refused file => (⟨none, none⟩, [.call (badWrite firstPair .refused file), .restart,
      .call (healthy secondPair), .restart, .call (healthy secondPair)])
  | .cut file => (⟨none, none⟩, [.call (badWrite firstPair (.cut 1) file), .restart,
      .call (healthy secondPair)])
  | .empty file => (⟨none, none⟩, [.call (healthy (withoutKey firstPair file)), .restart,
      .call (healthy secondPair)])
  | .killed => (⟨none, some [9]⟩, [.killed (healthy firstPair), .call (healthy secondPair)])

/-- Each kind of failure breaks a history on its own. -/
theorem breaking_unsound (f : Fault) :
    Allowed (· = f) (breaking f).2 ∧
      ¬Sound (breaking f).1 (run step (start (breaking f).1) (breaking f).2) := by
  unfold Allowed
  cases f with
  | read file => cases file <;> decide
  | refused file => cases file <;> decide
  | cut file => cases file <;> decide
  | empty file => cases file <;> decide
  | killed => decide

end Breaking

section Flawless
variable {a : Attempt} {n : Node} {d : Disk} {t : Trace} {initial : Disk} {kp : TFHEKeyPair}

section Results

theorem ensure_cached (h : 0 < n.cache.clientKey.length) :
    ensureNodeKeys a n = .ok n.cache n := by
  simp only [ensureNodeKeys, bind_ok, gets_ok]
  exact ⟨n.cache, n, ⟨rfl, rfl⟩, by rw [if_pos h]; rfl⟩

variable (hcold : ¬0 < n.cache.clientKey.length)
include hcold

theorem ensure_found (hfound : a.loaded n.disk = some kp) :
    ensureNodeKeys a n = .ok kp { n with cache := kp } := by
  simp only [ensureNodeKeys, bind_ok, gets_ok]
  refine ⟨n.cache, n, ⟨rfl, rfl⟩, ?_⟩
  rw [if_neg hcold, bind_ok]
  exact ⟨some kp, n, (gets_ok _).mpr ⟨hfound, rfl⟩, rfl⟩

theorem ensure_generated (hnone : a.loaded n.disk = none) (hgen : a.generated = .ok kp) :
    ensureNodeKeys a n = .ok kp ⟨a.writeServer kp (a.writeClient kp n.disk), kp⟩ := by
  simp only [ensureNodeKeys, bind_ok, gets_ok]
  refine ⟨n.cache, n, ⟨rfl, rfl⟩, ?_⟩
  rw [if_neg hcold, bind_ok]
  refine ⟨none, n, (gets_ok _).mpr ⟨hnone, rfl⟩, ?_⟩
  rw [hgen]
  rfl

theorem ensure_failed {e : Err} (hnone : a.loaded n.disk = none) (hgen : a.generated = .error e) :
    ensureNodeKeys a n = .err (.wrap "tfhe: key generation failed" e) n := by
  simp only [ensureNodeKeys, bind_err, gets_ok]
  refine .inr ⟨n.cache, n, ⟨rfl, rfl⟩, ?_⟩
  rw [if_neg hcold, bind_err]
  refine .inr ⟨none, n, (gets_ok _).mpr ⟨hnone, rfl⟩, ?_⟩
  rw [hgen]
  rfl

end Results

def Keyed (a : Attempt) : Prop :=
  ∀ kp, a.generated = .ok kp → kp.clientKey ≠ [] ∧ kp.serverKey ≠ []

theorem keyed_of_emptyKeys (h : emptyKeys a.generated = []) : Keyed a := by
  intro kp hkp
  simpa [emptyKeys, hkp] using h

/-- In an attempt without a fault the files are read and written, and no key is
empty. -/
structure Flawless (a : Attempt) : Prop where
  readsClient : a.readsClient = true
  readsServer : a.readsServer = true
  clientWrite : a.clientWrite = .written
  serverWrite : a.serverWrite = .written
  keyed : Keyed a

theorem written_of_no_faults {r : WriteResult} {file : KeyFile} (h : r.faults file = []) :
    r = .written := by
  cases r with
  | written => rfl
  | refused => cases h
  | cut n => cases h

theorem flawless_of_no_faults (h : a.faults = []) : Flawless a := by
  simp only [Attempt.faults, List.append_eq_nil_iff, List.map_eq_nil_iff] at h
  obtain ⟨⟨⟨⟨hck, hsk⟩, hcw⟩, hsw⟩, hgen⟩ := h
  exact ⟨by simpa using hck, by simpa using hsk, written_of_no_faults hcw,
    written_of_no_faults hsw, keyed_of_emptyKeys hgen⟩

theorem Flawless.loaded (h : Flawless a) (d : Disk) : a.loaded d = d.pair := by
  simp [Attempt.loaded, Attempt.readFile, h.readsClient, h.readsServer, Disk.pair]

theorem Flawless.written (h : Flawless a) (hgen : a.generated = .ok kp) (d : Disk) :
    (a.writeServer kp (a.writeClient kp d)).pair = some kp := by
  obtain ⟨hck, hsk⟩ := h.keyed kp hgen
  simp [Attempt.writeServer, Attempt.writeClient, h.clientWrite, h.serverWrite,
    WriteResult.contents, Disk.pair, foundKeys, List.length_pos_iff, hck, hsk]

/-- No pair has been returned, and there is none to be read. -/
structure Blank (t : Trace) : Prop where
  disk : t.node.disk.pair = none
  cache : t.node.cache = noKeys
  answers : ∀ ans ∈ t.answers, ans.pair = none

/-- One pair is in the files and in every answer since the first. -/
structure Settled (initial : Disk) (p : TFHEKeyPair) (t : Trace) : Prop where
  nonempty : p.clientKey ≠ []
  disk : t.node.disk.pair = some p
  cache : t.node.cache = noKeys ∨ t.node.cache = p
  origin : some p ∈ t.made.map some ∨ some p = initial.pair
  answers : ∀ ans ∈ t.answers, ans.pair = none ∨ ans.pair = some p
  lasting : Lasting t.answers

def Steady (initial : Disk) (t : Trace) : Prop := Blank t ∨ ∃ p, Settled initial p t

theorem Blank.lasting (h : Blank t) : Lasting t.answers :=
  List.pairwise_of_forall_mem_list fun x hx _ _ hsome => absurd (h.answers x hx) hsome

theorem Steady.sound (h : Steady initial t) : Sound initial t := by
  rcases h with h | ⟨p, h⟩
  · exact ⟨fun ans hans => .inl (h.answers ans hans), h.lasting⟩
  · refine ⟨fun ans hans => ?_, h.lasting⟩
    rcases h.answers ans hans with hnone | hsome
    · exact .inl hnone
    · rw [hsome]
      exact .inr h.origin

/-- A further answer of the settled pair. -/
theorem lasting_snoc {answers : List Answer} {p : TFHEKeyPair} {x : Answer}
    (hp : ∀ ans ∈ answers, ans.pair = none ∨ ans.pair = some p) (h : Lasting answers)
    (hx : x.pair = some p) : Lasting (answers ++ [x]) := by
  refine List.pairwise_append.mpr ⟨h, List.pairwise_singleton .., fun y hy z hz hsome _ _ => ?_⟩
  rw [List.mem_singleton.mp hz, hx]
  exact ((hp y hy).resolve_left hsome).symm

theorem foundKeys_nonempty {ck sk : Option (List UInt8)} (h : foundKeys ck sk = some kp) :
    kp.clientKey ≠ [] ∧ kp.serverKey ≠ [] := by
  unfold foundKeys at h
  split at h
  · split_ifs at h with hlen
    obtain rfl := Option.some.inj h
    exact ⟨List.length_pos_iff.mp hlen.1, List.length_pos_iff.mp hlen.2⟩
  · cases h

theorem steady_start (disk : Disk) : Steady disk (start disk) := by
  cases hpair : disk.pair with
  | none => exact .inl ⟨hpair, rfl, by simp [start]⟩
  | some p =>
      exact .inr ⟨p, (foundKeys_nonempty hpair).1, hpair, .inl rfl, .inr hpair.symm,
        by simp [start], List.Pairwise.nil⟩

theorem noKeys_cold (h : n.cache = noKeys) : ¬0 < n.cache.clientKey.length := by
  rw [h]
  decide

theorem Blank.call (h : Blank t) (ha : Flawless a) : Steady initial (step t (.call a)) := by
  have hcold := noKeys_cold h.cache
  have hnone : a.loaded t.node.disk = none := (ha.loaded _).trans h.disk
  cases hgen : a.generated with
  | error e =>
      left
      simp only [step, ensure_failed hcold hnone hgen]
      refine ⟨h.disk, h.cache, List.forall_mem_append.mpr ⟨h.answers, ?_⟩⟩
      exact List.forall_mem_singleton.mpr rfl
  | ok kp =>
      right
      have hmade : a.made t.node = some kp := by
        rw [Attempt.made, if_neg hcold, hnone, hgen]
        rfl
      refine ⟨kp, ?_⟩
      simp only [step, ensure_generated hcold hnone hgen, hmade]
      refine ⟨(ha.keyed kp hgen).1, ha.written hgen _, .inr rfl, .inl (by simp), ?_, ?_⟩
      · refine List.forall_mem_append.mpr ⟨fun ans hans => .inl (h.answers ans hans), ?_⟩
        exact List.forall_mem_singleton.mpr (.inr rfl)
      · exact lasting_snoc (fun ans hans => .inl (h.answers ans hans)) h.lasting rfl

theorem Settled.call {p : TFHEKeyPair} (h : Settled initial p t) (ha : Flawless a) :
    Settled initial p (step t (.call a)) := by
  have hcalled : ensureNodeKeys a t.node = .ok p ⟨t.node.disk, p⟩ ∧ a.made t.node = none := by
    rcases h.cache with hempty | hfull
    · have hcold := noKeys_cold hempty
      have hfound : a.loaded t.node.disk = some p := (ha.loaded _).trans h.disk
      exact ⟨ensure_found hcold hfound, by rw [Attempt.made, if_neg hcold, hfound]⟩
    · have hwarm : 0 < t.node.cache.clientKey.length := by
        rw [hfull]
        exact List.length_pos_iff.mpr h.nonempty
      refine ⟨?_, by rw [Attempt.made, if_pos hwarm]⟩
      rw [ensure_cached hwarm, ← hfull]
  simp only [step, hcalled, Option.toList_none, List.append_nil]
  refine ⟨h.nonempty, h.disk, .inr rfl, h.origin, ?_, ?_⟩
  · refine List.forall_mem_append.mpr ⟨h.answers, ?_⟩
    exact List.forall_mem_singleton.mpr (.inr rfl)
  · exact lasting_snoc h.answers h.lasting rfl

theorem Steady.step {e : Event} (h : Steady initial t) (he : e.faults = []) :
    Steady initial (step t e) := by
  cases e with
  | restart =>
      rcases h with h | ⟨p, h⟩
      · exact .inl ⟨h.disk, rfl, h.answers⟩
      · exact .inr ⟨p, h.nonempty, h.disk, .inl rfl, h.origin, h.answers, h.lasting⟩
  | call a =>
      have ha := flawless_of_no_faults he
      rcases h with h | ⟨p, h⟩
      · exact h.call ha
      · exact .inr ⟨p, h.call ha⟩
  | killed a => cases he

/-- Nothing is mismatched or lost exactly where nothing fails: no kind of failure
can be allowed. -/
theorem node_keys_sound_iff (F : Fault → Prop) :
    (∀ disk events, Allowed F events → Sound disk (run step (start disk) events)) ↔
      ∀ f, ¬F f := by
  constructor
  · intro h f hf
    obtain ⟨hallowed, hunsound⟩ := breaking_unsound f
    refine hunsound (h _ _ fun e he g hg => ?_)
    rw [hallowed e he g hg]
    exact hf
  · intro h disk events hallowed
    refine Steady.sound (run_invariant (Steady disk) (fun e => e.faults = []) ?_ events _
      (steady_start disk) fun e he => ?_)
    · intro t e he ht
      exact ht.step he
    · rw [List.eq_nil_iff_forall_not_mem]
      exact fun f hf => h f (hallowed e he f hf)

/-- Two processes of which each can write only one of the files. -/
def halves : List Event :=
  [.call (badWrite firstPair .refused .server), .restart,
    .call (badWrite secondPair .refused .client), .restart, .call (healthy firstPair)]

/-- They leave the client key of the first and the server key of the second, which a
third takes for a pair. Both pairs that were returned are lost. -/
theorem two_halves_paired :
    (run step (start ⟨none, none⟩) halves).answers =
      [⟨0, false, some firstPair⟩, ⟨1, false, some secondPair⟩,
        ⟨2, true, some ⟨firstPair.clientKey, secondPair.serverKey⟩⟩] ∧
    ¬Genuine ⟨none, none⟩ (run step (start ⟨none, none⟩) halves) ∧
    ¬Lasting (run step (start ⟨none, none⟩) halves).answers := by
  decide

end Flawless

end Zytherion.NodeKeys
