import Zytherion.KeyLoading
import Mathlib.Logic.Function.Basic

/-!
# Two sources of the node's keys

The keeper takes its pair from `EnsureNodeKeys` and the query plugin of the
contracts from a loader of its own. Both go about it in the same way, each with its
own cache; called alone the plugin's loader does what the keeper's does
(`KeyLoading.outcome_alone`). The files differ as soon as the node has a home
directory of its own. Then the two have one pair only if both pairs of files were
there from the beginning and hold the same bytes.

A file system is the contents under each path, without links between paths.
-/
namespace Zytherion.KeySources

open GoCall Application NodeKeys

structure KeyPaths where
  ckPath : String
  skPath : String

def defaultClientKeyFile : String := ".zytherion_tfhe_client.key"

def defaultServerKeyFile : String := ".zytherion_tfhe_server.key"

/-- What a process finds around it: the user's home directory, if there is one, and
the node's. -/
structure Surroundings where
  userHomeDir : Option String
  nodeHome : String

def homePaths (env : Surroundings) : KeyPaths :=
  let home := env.userHomeDir.getD "."
  ⟨home ++ "/" ++ defaultClientKeyFile, home ++ "/" ++ defaultServerKeyFile⟩

def keyPaths (env : Surroundings) : KeyPaths :=
  if env.nodeHome ≠ "" then
    ⟨env.nodeHome ++ "/tfhe_client.key", env.nodeHome ++ "/tfhe_server.key"⟩
  else homePaths env

inductive Loader where
  | keeper
  | plugin
deriving DecidableEq

def Loader.paths (env : Surroundings) : Loader → KeyPaths
  | keeper => keyPaths env
  | plugin => homePaths env

abbrev Files : Type := String → Option (List UInt8)

def diskAt (files : Files) (paths : KeyPaths) : Disk := ⟨files paths.ckPath, files paths.skPath⟩

def writeAt (files : Files) (paths : KeyPaths) (d : Disk) : Files :=
  Function.update (Function.update files paths.ckPath d.client) paths.skPath d.server

/-- The files and what each loader has cached. -/
structure Process where
  files : Files
  cache : Loader → TFHEKeyPair

section Calls
variable (env : Surroundings)

def Process.node (l : Loader) (p : Process) : Node := ⟨diskAt p.files (l.paths env), p.cache l⟩

def Process.withNode (l : Loader) (p : Process) (n : Node) : Process :=
  ⟨writeAt p.files (l.paths env) n.disk, Function.update p.cache l n.cache⟩

/-- `EnsureNodeKeys` for the keeper, `ensureKeys` for the plugin. -/
def ensureKeys (l : Loader) (a : Attempt) : Call Process Err TFHEKeyPair :=
  zoom (Process.node env l) (Process.withNode env l) (ensureNodeKeys a)

/-- A process and the pairs its loaders have returned. -/
structure Trace where
  process : Process
  answers : List (Loader × TFHEKeyPair)

def start (files : Files) : Trace := ⟨⟨files, fun _ => noKeys⟩, []⟩

def step (t : Trace) (c : Loader × Attempt) : Trace :=
  { process := (ensureKeys env c.1 c.2 t.process).left.getD t.process
    answers := t.answers ++
      ((ensureKeys env c.1 c.2 t.process).returned.map fun kp => (c.1, kp)).toList }

end Calls

/-- However often and in whatever order the two loaders are called, with every file
read and written and every generation as it may be, they return the same pair. -/
def UsesOnePair (env : Surroundings) (files : Files) : Prop :=
  ∀ calls : List (Loader × Attempt), (∀ c ∈ calls, Flawless c.2) → ∀ p q,
    (Loader.keeper, p) ∈ (run (step env) (start files) calls).answers →
    (Loader.plugin, q) ∈ (run (step env) (start files) calls).answers → p = q

section Paths
variable {env : Surroundings}

/-- Paths with different endings of one length are different. -/
theorem ne_of_ending {x y u v : String} (hlen : u.toList.length = v.toList.length) (hne : u ≠ v) :
    x ++ u ≠ y ++ v := by
  intro h
  have hl := congrArg String.toList h
  rw [String.toList_append, String.toList_append] at hl
  exact hne (String.toList_inj.mp (List.append_inj_right' hl hlen))

theorem homePaths_eq (env : Surroundings) :
    homePaths env = ⟨env.userHomeDir.getD "." ++ "/.zytherion" ++ "_tfhe_client.key",
      env.userHomeDir.getD "." ++ "/.zytherion" ++ "_tfhe_server.key"⟩ := by
  simp only [homePaths, String.append_assoc]
  rfl

theorem keyPaths_own (h : env.nodeHome ≠ "") :
    keyPaths env = ⟨env.nodeHome ++ "/tfhe_client.key", env.nodeHome ++ "/tfhe_server.key"⟩ :=
  if_pos h

theorem keyPaths_shared (h : env.nodeHome = "") : keyPaths env = homePaths env :=
  if_neg fun hne => hne h

theorem Loader.paths_ne (l : Loader) (env : Surroundings) :
    (l.paths env).ckPath ≠ (l.paths env).skPath := by
  have hhome : (homePaths env).ckPath ≠ (homePaths env).skPath := by
    rw [homePaths_eq]
    exact ne_of_ending (by decide) (by decide)
  cases l with
  | plugin => exact hhome
  | keeper =>
      by_cases h : env.nodeHome = ""
      · rw [Loader.paths, keyPaths_shared h]
        exact hhome
      · rw [Loader.paths, keyPaths_own h]
        exact ne_of_ending (by decide) (by decide)

theorem diskAt_writeAt (l : Loader) (env : Surroundings) (files : Files) (d : Disk) :
    diskAt (writeAt files (l.paths env) d) (l.paths env) = d := by
  simp [diskAt, writeAt, l.paths_ne env]

theorem writeAt_diskAt (files : Files) (paths : KeyPaths) :
    writeAt files paths (diskAt files paths) = files := by
  simp [diskAt, writeAt]

/-- With a home directory of the node's own, what the keeper writes is not where the
plugin reads. -/
theorem plugin_disk_writeAt (h : env.nodeHome ≠ "") (files : Files) (d : Disk) :
    diskAt (writeAt files (keyPaths env) d) (homePaths env) = diskAt files (homePaths env) := by
  rw [keyPaths_own h, homePaths_eq]
  simp only [diskAt, writeAt]
  rw [Function.update_of_ne (ne_of_ending (by decide) (by decide)),
    Function.update_of_ne (ne_of_ending (by decide) (by decide)),
    Function.update_of_ne (ne_of_ending (by decide) (by decide)),
    Function.update_of_ne (ne_of_ending (by decide) (by decide))]

end Paths

section Agreement
variable {env : Surroundings} {t : Trace} {p kp : TFHEKeyPair} {a : Attempt} {l : Loader}

/-- Both loaders are at one pair, cached or still to be read. -/
structure Settled (env : Surroundings) (p : TFHEKeyPair) (t : Trace) : Prop where
  nonempty : p.clientKey ≠ []
  disk : ∀ l : Loader, (diskAt t.process.files (l.paths env)).pair = some p
  cache : ∀ l, t.process.cache l = noKeys ∨ t.process.cache l = p
  answers : ∀ x ∈ t.answers, x.2 = p

/-- No pair has been returned, and neither loader can read one. -/
structure Blank (env : Surroundings) (t : Trace) : Prop where
  disk : ∀ l : Loader, (diskAt t.process.files (l.paths env)).pair = none
  cache : ∀ l, t.process.cache l = noKeys
  answers : t.answers = []

theorem withNode_cache (p : Process) (n : Node) (l m : Loader) :
    (p.withNode env l n).cache m = if m = l then n.cache else p.cache m :=
  Function.update_apply ..

theorem step_ok {n : Node} (h : ensureNodeKeys a (t.process.node env l) = .ok kp n) :
    step env t (l, a) = ⟨t.process.withNode env l n, t.answers ++ [(l, kp)]⟩ := by
  have hok : ensureKeys env l a t.process = .ok kp (t.process.withNode env l n) :=
    (zoom_ok ..).mpr ⟨n, h, rfl⟩
  simp only [step, hok]
  rfl

theorem Settled.step (h : Settled env p t) (ha : Flawless a) (l : Loader) :
    Settled env p (step env t (l, a)) := by
  have hcalled : ensureNodeKeys a (t.process.node env l) =
      .ok p ⟨diskAt t.process.files (l.paths env), p⟩ := by
    rcases h.cache l with hempty | hfull
    · exact ensure_found (noKeys_cold hempty) ((ha.loaded _).trans (h.disk l))
    · have hwarm : 0 < (t.process.node env l).cache.clientKey.length := by
        show 0 < (t.process.cache l).clientKey.length
        rw [hfull]
        exact List.length_pos_iff.mpr h.nonempty
      rw [ensure_cached hwarm]
      exact congrArg₂ Outcome.ok hfull (congrArg (Node.mk _) hfull)
  rw [step_ok hcalled]
  refine ⟨h.nonempty, ?_, ?_, ?_⟩
  · intro m
    simp only [Process.withNode, writeAt_diskAt]
    exact h.disk m
  · intro m
    rw [withNode_cache]
    split_ifs
    · exact .inr rfl
    · exact h.cache m
  · exact List.forall_mem_append.mpr ⟨h.answers, List.forall_mem_singleton.mpr rfl⟩

/-- Where both loaders use the same files, the first pair generated is the pair. -/
theorem Blank.step (hshared : env.nodeHome = "") (h : Blank env t) (ha : Flawless a) (l : Loader) :
    Blank env (step env t (l, a)) ∨ ∃ p, Settled env p (step env t (l, a)) := by
  have hcold : ¬0 < (t.process.node env l).cache.clientKey.length := noKeys_cold (h.cache l)
  have hnone : a.loaded (t.process.node env l).disk = none := (ha.loaded _).trans (h.disk l)
  have hpaths : ∀ m : Loader, m.paths env = l.paths env := by
    intro m
    cases m <;> cases l <;> simp [Loader.paths, keyPaths_shared hshared]
  cases hgen : a.generated with
  | error e =>
      left
      have herr : ensureKeys env l a t.process = .err (.wrap "tfhe: key generation failed" e)
          (t.process.withNode env l (t.process.node env l)) := by
        simp only [ensureKeys, zoom, ensure_failed hcold hnone hgen]
      have hsame : t.process.withNode env l (t.process.node env l) = t.process := by
        simp [Process.withNode, Process.node, writeAt_diskAt]
      rw [hsame] at herr
      simp only [KeySources.step, herr]
      exact ⟨h.disk, h.cache, by rw [h.answers]; rfl⟩
  | ok kp =>
      right
      refine ⟨kp, ?_⟩
      rw [step_ok (ensure_generated hcold hnone hgen)]
      refine ⟨(ha.keyed kp hgen).1, ?_, ?_, ?_⟩
      · intro m
        rw [hpaths m, Process.withNode, diskAt_writeAt]
        exact ha.written hgen _
      · intro m
        rw [withNode_cache]
        split_ifs
        · exact .inr rfl
        · exact .inl (h.cache m)
      · simp [h.answers]

theorem Settled.run (h : Settled env p t) {calls : List (Loader × Attempt)}
    (hcalls : ∀ c ∈ calls, Flawless c.2) :
    Settled env p (GoCall.run (KeySources.step env) t calls) :=
  run_invariant (Settled env p) (fun c => Flawless c.2)
    (fun _ c hc ht => ht.step hc c.1) calls t h hcalls

theorem Blank.run (hshared : env.nodeHome = "") (h : Blank env t) {calls : List (Loader × Attempt)}
    (hcalls : ∀ c ∈ calls, Flawless c.2) :
    Blank env (GoCall.run (KeySources.step env) t calls) ∨
      ∃ p, Settled env p (GoCall.run (KeySources.step env) t calls) := by
  refine run_invariant (fun t => Blank env t ∨ ∃ p, Settled env p t) (fun c => Flawless c.2)
    ?_ calls t (.inl h) hcalls
  rintro t c hc (hblank | ⟨p, hp⟩)
  · exact hblank.step hshared hc c.1
  · exact .inr ⟨p, hp.step hc c.1⟩

theorem settled_start {files : Files}
    (h : ∀ l : Loader, (diskAt files (l.paths env)).pair = some p) :
    Settled env p (start files) :=
  ⟨(foundKeys_nonempty (h .keeper)).1, h, fun _ => .inl rfl, by simp [start]⟩

section Separate
variable (files : Files)

theorem healthy_flawless (hc : kp.clientKey ≠ []) (hs : kp.serverKey ≠ []) :
    Flawless (healthy kp) := by
  refine ⟨rfl, rfl, rfl, rfl, ?_⟩
  intro kp' hkp'
  obtain rfl := Except.ok.inj hkp'
  exact ⟨hc, hs⟩

theorem firstPair_flawless : Flawless (healthy firstPair) :=
  healthy_flawless (by decide) (by decide)

theorem secondPair_flawless : Flawless (healthy secondPair) :=
  healthy_flawless (by decide) (by decide)

/-- A first call returns what is in the files, or else what it generates. -/
theorem first_call (env : Surroundings) (t : Trace) (l : Loader)
    (hcold : t.process.cache l = noKeys) (ha : Flawless (healthy kp)) :
    ∃ n, ensureNodeKeys (healthy kp) (t.process.node env l) =
      .ok ((diskAt t.process.files (l.paths env)).pair.getD kp) n := by
  have hloaded := ha.loaded (diskAt t.process.files (l.paths env))
  cases hpair : (diskAt t.process.files (l.paths env)).pair with
  | some q => exact ⟨_, ensure_found (noKeys_cold hcold) (hloaded.trans hpair)⟩
  | none => exact ⟨_, ensure_generated (noKeys_cold hcold) (hloaded.trans hpair) rfl⟩

/-- The keeper is called, then the plugin. -/
theorem answers_separate (hown : env.nodeHome ≠ "") {kq : TFHEKeyPair}
    (hkp : Flawless (healthy kp)) (hkq : Flawless (healthy kq)) :
    (run (step env) (start files) [(.keeper, healthy kp), (.plugin, healthy kq)]).answers =
      [(.keeper, (diskAt files (keyPaths env)).pair.getD kp),
        (.plugin, (diskAt files (homePaths env)).pair.getD kq)] := by
  obtain ⟨n, hn⟩ := first_call env (start files) .keeper rfl hkp
  have hfirst := step_ok hn
  obtain ⟨m, hm⟩ := first_call env (step env (start files) (.keeper, healthy kp)) .plugin
    (by rw [hfirst]; exact withNode_cache ..) hkq
  rw [run_cons, run_cons, run_nil, step_ok hm, hfirst]
  have hdisk : diskAt ((start files).process.withNode env .keeper n).files (homePaths env) =
      diskAt files (homePaths env) := plugin_disk_writeAt hown files n.disk
  simp only [Loader.paths, hdisk]
  rfl

/-- Two generations can be told apart unless both pairs are there already. -/
theorem exists_different {o u : Option TFHEKeyPair} (h : ¬∃ p, o = some p ∧ u = some p) :
    ∃ kp kq, Flawless (healthy kp) ∧ Flawless (healthy kq) ∧ o.getD kp ≠ u.getD kq := by
  have hother : ∀ q, ∃ kp, Flawless (healthy kp) ∧ kp ≠ q := by
    intro q
    by_cases hq : firstPair = q
    · exact ⟨secondPair, secondPair_flawless, fun h => absurd (hq.trans h.symm) (by decide)⟩
    · exact ⟨firstPair, firstPair_flawless, hq⟩
  cases o with
  | none =>
      obtain ⟨kp, hkp, hne⟩ := hother (u.getD firstPair)
      exact ⟨kp, firstPair, hkp, firstPair_flawless, hne⟩
  | some p =>
      cases u with
      | none =>
          obtain ⟨kq, hkq, hne⟩ := hother p
          exact ⟨firstPair, kq, firstPair_flawless, hkq, hne.symm⟩
      | some q =>
          exact ⟨firstPair, firstPair, firstPair_flawless, firstPair_flawless,
            fun hpq => h ⟨p, rfl, congrArg some hpq.symm⟩⟩

end Separate

theorem settled_agree (h : ∃ p, Settled env p t) : ∀ p q, (Loader.keeper, p) ∈ t.answers →
    (Loader.plugin, q) ∈ t.answers → p = q := by
  obtain ⟨r, hr⟩ := h
  intro p q hp hq
  exact (hr.answers _ hp).trans (hr.answers _ hq).symm

theorem usesOnePair_of_stored {files : Files}
    (h : ∀ l : Loader, (diskAt files (l.paths env)).pair = some p) : UsesOnePair env files :=
  fun _ hcalls => settled_agree ⟨p, (settled_start h).run hcalls⟩

theorem usesOnePair_of_shared (hshared : env.nodeHome = "") (files : Files) :
    UsesOnePair env files := by
  have hpaths : ∀ l : Loader, l.paths env = homePaths env := by
    intro l
    cases l with
    | keeper => exact keyPaths_shared hshared
    | plugin => rfl
  cases hpair : (diskAt files (homePaths env)).pair with
  | some p => exact usesOnePair_of_stored fun l => by rw [hpaths l]; exact hpair
  | none =>
      intro calls hcalls
      have hstart : Blank env (start files) :=
        ⟨fun l => by rw [hpaths l]; exact hpair, fun _ => rfl, rfl⟩
      rcases hstart.run hshared hcalls with hblank | hpairs
      · intro p q hp
        rw [hblank.answers] at hp
        cases hp
      · exact settled_agree hpairs

/-- The keeper and the plugin have one pair exactly if they use the same files, or if
both pairs of files already hold it. -/
theorem one_pair_iff (env : Surroundings) (files : Files) :
    UsesOnePair env files ↔ env.nodeHome = "" ∨
      ∃ p, (diskAt files (keyPaths env)).pair = some p ∧
        (diskAt files (homePaths env)).pair = some p := by
  constructor
  · intro h
    by_contra hno
    rw [not_or] at hno
    obtain ⟨kp, kq, hkp, hkq, hne⟩ := exists_different hno.2
    have hanswers := answers_separate files hno.1 hkp hkq
    refine hne (h _ ?_ _ _ (by rw [hanswers]; simp) (by rw [hanswers]; simp))
    exact List.forall_mem_cons.mpr ⟨hkp, List.forall_mem_singleton.mpr hkq⟩
  · rintro (hshared | ⟨p, hkeeper, hplugin⟩)
    · exact usesOnePair_of_shared hshared files
    · apply usesOnePair_of_stored
      intro l
      cases l with
      | keeper => exact hkeeper
      | plugin => exact hplugin

/-- A new node: each loader generates a pair of its own, and goes on using it after
both have written their files. -/
theorem two_pairs :
    ¬UsesOnePair ⟨some "/root", "/root/.zytherion"⟩ (fun _ => none) ∧
      (run (step ⟨some "/root", "/root/.zytherion"⟩) (start fun _ => none)
        [(.keeper, healthy firstPair), (.plugin, healthy secondPair),
          (.keeper, healthy secondPair)]).answers =
        [(.keeper, firstPair), (.plugin, secondPair), (.keeper, firstPair)] := by
  have hanswers : (run (step ⟨some "/root", "/root/.zytherion"⟩) (start fun _ => none)
      [(.keeper, healthy firstPair), (.plugin, healthy secondPair),
        (.keeper, healthy secondPair)]).answers =
      [(.keeper, firstPair), (.plugin, secondPair), (.keeper, firstPair)] := by decide +kernel
  refine ⟨?_, hanswers⟩
  intro h
  have hcalls := h _ (List.forall_mem_cons.mpr ⟨firstPair_flawless,
    List.forall_mem_cons.mpr ⟨secondPair_flawless,
      List.forall_mem_singleton.mpr secondPair_flawless⟩⟩)
    firstPair secondPair (by rw [hanswers]; decide) (by rw [hanswers]; decide)
  exact absurd hcalls (by decide)

end Agreement
end Zytherion.KeySources
