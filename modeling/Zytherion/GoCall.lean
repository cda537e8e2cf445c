import Mathlib.Logic.Basic

/-!
# Stateful calls that may return an error or panic

A call runs over a store that it may have written to before it fails. A
returned error therefore carries the store as the callee left it: nothing is
undone until somebody throws the branch away. A panic carries no store, since
no caller of this development recovers one below the transaction boundary.

`commit` is that boundary: it keeps the store of a call that returned and the
old store of every other call.
-/
namespace Zytherion.GoCall

inductive Outcome (σ ε α : Type) where
  | ok (a : α) (s : σ)
  | err (e : ε) (s : σ)
  | panic (reason : String)

/-- What a call returned, if it did. -/
def Outcome.returned {σ ε α : Type} : Outcome σ ε α → Option α
  | ok a _ => some a
  | _ => none

def Outcome.panicked {σ ε α : Type} : Outcome σ ε α → Bool
  | panic _ => true
  | _ => false

def Call (σ ε α : Type) : Type := σ → Outcome σ ε α

/-- A computation that reads no store and can only return or panic. -/
abbrev Checked (α : Type) : Type := Except String α

variable {σ ε α β : Type}

/-- A lookup whose miss panics. -/
def orPanic (o : Option α) (reason : String) : Checked α :=
  match o with
  | some a => .ok a
  | none => .error reason

@[simp] theorem orPanic_ok (o : Option α) (reason : String) (a : α) :
    orPanic o reason = .ok a ↔ o = some a := by
  cases o <;> simp [orPanic]

/-- A condition whose failure panics. -/
def panicUnless (b : Bool) (reason : String) : Checked Unit := if b then .ok () else .error reason

@[simp] theorem panicUnless_ok (b : Bool) (reason : String) (u : Unit) :
    panicUnless b reason = .ok u ↔ b = true := by
  cases b <;> simp [panicUnless]

/-- Sequencing fallible computations: both have to return. -/
theorem except_bind_ok (x : Except ε α) (f : α → Except ε β) (b : β) :
    (x >>= f) = .ok b ↔ ∃ a, x = .ok a ∧ f a = .ok b := by
  cases x with
  | ok a =>
      show f a = .ok b ↔ _
      simp
  | error e =>
      show Except.error e = Except.ok b ↔ _
      simp

theorem mapError_ok {ε' : Type} {x : Except ε α} {g : ε → ε'} {a : α} :
    x.mapError g = .ok a ↔ x = .ok a := by
  cases x with
  | ok b =>
      show Except.ok b = Except.ok a ↔ _
      simp
  | error e =>
      show Except.error (g e) = Except.ok a ↔ _
      simp

theorem checked_ok_bind (a : α) (f : α → Checked β) : (Except.ok a >>= f) = f a := rfl

/-- Sequencing pure computations. -/
@[simp] theorem checked_bind_ok (x : Checked α) (f : α → Checked β) (b : β) :
    (x >>= f) = .ok b ↔ ∃ a, x = .ok a ∧ f a = .ok b := except_bind_ok x f b

instance : Monad (Call σ ε) where
  pure a := fun s => .ok a s
  bind x f := fun s =>
    match x s with
    | .ok a t => f a t
    | .err e t => .err e t
    | .panic r => .panic r

theorem bind_assoc_call {γ : Type} (x : Call σ ε α) (f : α → Call σ ε β)
    (g : β → Call σ ε γ) : (x >>= f) >>= g = x >>= fun a => f a >>= g := by
  funext s
  show (match (match x s with
      | .ok a t => f a t
      | .err e t => .err e t
      | .panic r => .panic r) with
    | .ok b t => g b t
    | .err e t => .err e t
    | .panic r => .panic r) = match x s with
      | .ok a t => (f a >>= g) t
      | .err e t => .err e t
      | .panic r => .panic r
  cases x s <;> rfl

/-- Pure computations keep the store; their failure is a panic of the caller. -/
instance : MonadLift (Except String) (Call σ ε) where
  monadLift x := fun s =>
    match x with
    | .ok a => .ok a s
    | .error r => .panic r

/-- Reading the store. -/
def gets (f : σ → α) : Call σ ε α := fun s => .ok (f s) s

/-- Writing the store. -/
def modifyStore (f : σ → σ) : Call σ ε Unit := fun s => .ok () (f s)

/-- The guard `if !b { return e }`. -/
def require (b : Bool) (e : ε) : Call σ ε Unit := fun s => if b then .ok () s else .err e s

/-- A lookup whose miss is an error. -/
def lookup (f : σ → Option α) (e : ε) : Call σ ε α := fun s =>
  match f s with
  | some a => .ok a s
  | none => .err e s

/-- A pure function of the source that returns a value or an error. -/
def ofExcept (x : Except ε α) : Call σ ε α := fun s =>
  match x with
  | .ok a => .ok a s
  | .error e => .err e s

/-- A call whose error the caller inspects and handles itself. -/
def attempt (x : Call σ ε α) : Call σ ε (Option α) := fun s =>
  match x s with
  | .ok a t => .ok (some a) t
  | .err _ t => .ok none t
  | .panic r => .panic r

/-- Rewriting a returned error on the way up. Panics pass through. -/
def mapErr (g : ε → ε) (x : Call σ ε α) : Call σ ε α := fun s =>
  match x s with
  | .ok a t => .ok a t
  | .err e t => .err (g e) t
  | .panic r => .panic r

/-- A call whose error its caller turns into a panic. -/
def must (reason : ε → String) (x : Call σ ε α) : Call σ ε α := fun s =>
  match x s with
  | .err e _ => .panic (reason e)
  | out => out

/-- The assignment `_ = x`: the error is dropped, the writes made before it
stay, and a panic still passes. -/
def ignoreErr (x : Call σ ε α) : Call σ ε Unit := fun s =>
  match x s with
  | .ok _ t => .ok () t
  | .err _ t => .ok () t
  | .panic r => .panic r

/-- A call on a part of a larger store. -/
def zoom {τ : Type} (view : τ → σ) (put : τ → σ → τ) (x : Call σ ε α) : Call τ ε α := fun w =>
  match x (view w) with
  | .ok a t => .ok a (put w t)
  | .err e t => .err e (put w t)
  | .panic r => .panic r

/-- The transaction boundary. -/
def commit (x : Call σ ε α) (s : σ) : σ :=
  match x s with
  | .ok _ t => t
  | _ => s

section Inversion
variable {s t : σ} {a : α} {b : β}

theorem returned_iff {o : Outcome σ ε α} : o.returned = some a ↔ ∃ t, o = .ok a t := by
  cases o <;> simp [Outcome.returned]

@[simp] theorem pure_ok (a a' : α) :
    (pure a : Call σ ε α) s = .ok a' t ↔ a = a' ∧ s = t := by
  show Outcome.ok a s = Outcome.ok a' t ↔ _
  rw [Outcome.ok.injEq]

@[simp] theorem bind_ok (x : Call σ ε α) (f : α → Call σ ε β) :
    (x >>= f) s = .ok b t ↔ ∃ a u, x s = .ok a u ∧ f a u = .ok b t := by
  show (match x s with
    | .ok a u => f a u
    | .err e u => .err e u
    | .panic r => .panic r) = Outcome.ok b t ↔ _
  cases x s with
  | ok a u =>
      constructor
      · intro h
        exact ⟨a, u, rfl, h⟩
      · rintro ⟨_, _, ⟨⟩, h⟩
        exact h
  | err e u => simp
  | panic r => simp

/-- A call goes on after a part that returned. -/
theorem bind_of_ok {x : Call σ ε α} {f : α → Call σ ε β} {u : σ} (h : x s = .ok a u) :
    (x >>= f) s = f a u := by
  show (match x s with
    | .ok a u => f a u
    | .err e u => .err e u
    | .panic r => .panic r) = f a u
  rw [h]

theorem bind_of_panic {x : Call σ ε α} {f : α → Call σ ε β} {reason : String}
    (h : x s = .panic reason) : (x >>= f) s = .panic reason := by
  show (match x s with
    | .ok a u => f a u
    | .err e u => .err e u
    | .panic r => .panic r) = .panic reason
  rw [h]

/-- A guard that holds is passed. -/
theorem require_bind {c : Bool} {e : ε} {f : Unit → Call σ ε β} (h : c = true) :
    (require c e >>= f) = f () := by
  rw [h]
  rfl

theorem liftM_bind {x : Checked α} {f : α → Call σ ε β} (h : x = .ok a) :
    (liftM x >>= f) = f a := by
  rw [h]
  rfl

@[simp] theorem lift_ok (x : Checked α) :
    (MonadLift.monadLift x : Call σ ε α) s = .ok a t ↔ x = .ok a ∧ s = t := by
  show (match x with
    | .ok a => Outcome.ok a s
    | .error r => .panic r) = Outcome.ok a t ↔ _
  cases x with
  | ok a => simp
  | error r => simp

@[simp] theorem liftM_ok (x : Checked α) :
    (liftM x : Call σ ε α) s = .ok a t ↔ x = .ok a ∧ s = t := lift_ok x

@[simp] theorem gets_ok (f : σ → α) :
    (gets f : Call σ ε α) s = .ok a t ↔ f s = a ∧ s = t := by
  simp [gets]

@[simp] theorem modifyStore_ok (f : σ → σ) (x : Unit) :
    (modifyStore f : Call σ ε Unit) s = .ok x t ↔ f s = t := by
  simp [modifyStore]

@[simp] theorem require_ok (c : Bool) (e : ε) (x : Unit) :
    (require c e : Call σ ε Unit) s = .ok x t ↔ c = true ∧ s = t := by
  cases c <;> simp [require]

@[simp] theorem lookup_ok (f : σ → Option α) (e : ε) :
    (lookup f e : Call σ ε α) s = .ok a t ↔ f s = some a ∧ s = t := by
  unfold lookup
  cases f s <;> simp

@[simp] theorem ofExcept_ok (x : Except ε α) :
    (ofExcept x : Call σ ε α) s = .ok a t ↔ x = .ok a ∧ s = t := by
  cases x <;> simp [ofExcept]

@[simp] theorem attempt_lookup_ok (f : σ → Option α) (e : ε) (o : Option α) :
    attempt (lookup f e : Call σ ε α) s = .ok o t ↔ f s = o ∧ s = t := by
  unfold attempt lookup
  cases f s <;> simp

theorem attempt_ok {x : Call σ ε α} {o : Option α} : attempt x s = .ok o t ↔
    (∃ a, o = some a ∧ x s = .ok a t) ∨ (o = none ∧ ∃ e, x s = .err e t) := by
  unfold attempt
  cases x s with
  | ok a m =>
      simp only [Outcome.ok.injEq, reduceCtorEq, exists_false, and_false, or_false]
      constructor
      · rintro ⟨rfl, rfl⟩
        exact ⟨a, rfl, rfl, rfl⟩
      · rintro ⟨_, rfl, rfl, rfl⟩
        exact ⟨rfl, rfl⟩
  | err e m => simp [eq_comm]
  | panic r => simp

/-- A loop over one element is its body. -/
@[simp] theorem forM_singleton_ok (f : β → Call σ ε PUnit) (y : β) (u : PUnit) :
    List.forM [y] f s = .ok u t ↔ f y s = .ok u t := by
  show (f y >>= fun _ => pure PUnit.unit) s = _ ↔ _
  simp only [bind_ok, pure_ok]
  constructor
  · rintro ⟨_, _, h, -, rfl⟩
    exact h
  · intro h
    exact ⟨u, t, h, trivial, rfl⟩

theorem forM_cons_ok (f : β → Call σ ε PUnit) (y : β) (ys : List β) (u : PUnit) :
    List.forM (y :: ys) f s = .ok u t ↔ ∃ m, f y s = .ok ⟨⟩ m ∧ List.forM ys f m = .ok u t := by
  show (f y >>= fun _ => List.forM ys f) s = _ ↔ _
  rw [bind_ok]
  constructor
  · rintro ⟨v, m, hy, hys⟩
    exact ⟨m, hy, hys⟩
  · rintro ⟨m, hy, hys⟩
    exact ⟨⟨⟩, m, hy, hys⟩

/-- A loop that returned ran its body on every element. -/
theorem forM_ok_mem {f : β → Call σ ε PUnit} {ys : List β} {u : PUnit}
    (h : List.forM ys f s = .ok u t) {y : β} (hy : y ∈ ys) : ∃ v m n, f y m = .ok v n := by
  induction ys generalizing s with
  | nil => cases hy
  | cons z ys ih =>
      obtain ⟨v, m, hz, hrest⟩ := (bind_ok (f z) _).mp h
      rcases List.mem_cons.mp hy with rfl | hy
      · exact ⟨v, s, m, hz⟩
      · exact ih hrest hy

/-- A loop whose body always returns does so too. -/
theorem forM_returns {f : β → Call σ ε PUnit} (h : ∀ y s, ∃ t, f y s = .ok ⟨⟩ t) (ys : List β)
    (s : σ) : ∃ t, List.forM ys f s = .ok ⟨⟩ t := by
  induction ys generalizing s with
  | nil => exact ⟨s, rfl⟩
  | cons y ys ih =>
      obtain ⟨m, hm⟩ := h y s
      obtain ⟨t, ht⟩ := ih m
      exact ⟨t, (bind_ok (f y) _).mpr ⟨⟨⟩, m, hm, ht⟩⟩

@[simp] theorem mapErr_ok (g : ε → ε) (x : Call σ ε α) :
    mapErr g x s = .ok a t ↔ x s = .ok a t := by
  unfold mapErr
  cases x s <;> simp

@[simp] theorem ignoreErr_ok (x : Call σ ε α) (y : Unit) :
    ignoreErr x s = .ok y t ↔ (∃ a, x s = .ok a t) ∨ ∃ e, x s = .err e t := by
  unfold ignoreErr
  cases x s <;> simp

@[simp] theorem zoom_ok {τ : Type} (view : τ → σ) (put : τ → σ → τ) (x : Call σ ε α) {w w' : τ} :
    zoom view put x w = .ok a w' ↔ ∃ t, x (view w) = .ok a t ∧ put w t = w' := by
  unfold zoom
  cases x (view w) with
  | ok b t =>
      simp only [Outcome.ok.injEq]
      constructor
      · rintro ⟨rfl, rfl⟩
        exact ⟨t, ⟨rfl, rfl⟩, rfl⟩
      · rintro ⟨_, ⟨rfl, rfl⟩, rfl⟩
        exact ⟨rfl, rfl⟩
  | err e t => simp
  | panic r => simp

end Inversion

/-! The same for returned errors: who returned it, and over which store. -/

section Errors
variable {s t : σ} {e : ε}

@[simp] theorem pure_err (a : α) : (pure a : Call σ ε α) s = .err e t ↔ False := by
  show Outcome.ok a s = Outcome.err e t ↔ False
  simp

@[simp] theorem bind_err (x : Call σ ε α) (f : α → Call σ ε β) :
    (x >>= f) s = .err e t ↔ x s = .err e t ∨ ∃ a u, x s = .ok a u ∧ f a u = .err e t := by
  show (match x s with
    | .ok a u => f a u
    | .err e u => .err e u
    | .panic r => .panic r) = Outcome.err e t ↔ _
  cases x s with
  | ok a u =>
      constructor
      · intro h
        exact .inr ⟨a, u, rfl, h⟩
      · rintro (⟨⟨⟩⟩ | ⟨_, _, ⟨⟩, h⟩)
        exact h
  | err e u => simp
  | panic r => simp

@[simp] theorem liftM_err (x : Checked α) : (liftM x : Call σ ε α) s = .err e t ↔ False := by
  show (match x with
    | .ok a => Outcome.ok a s
    | .error r => .panic r) = Outcome.err e t ↔ False
  cases x with
  | ok a => simp
  | error r => simp

@[simp] theorem gets_err (f : σ → α) : (gets f : Call σ ε α) s = .err e t ↔ False := by
  simp [gets]

@[simp] theorem modifyStore_err (f : σ → σ) :
    (modifyStore f : Call σ ε Unit) s = .err e t ↔ False := by
  simp [modifyStore]

@[simp] theorem require_err (c : Bool) (e' : ε) :
    (require c e' : Call σ ε Unit) s = .err e t ↔ c = false ∧ e' = e ∧ s = t := by
  cases c <;> simp [require]

@[simp] theorem forM_singleton_err (f : β → Call σ ε PUnit) (y : β) :
    List.forM [y] f s = .err e t ↔ f y s = .err e t := by
  show (f y >>= fun _ => pure PUnit.unit) s = _ ↔ _
  simp

end Errors

/-! And for panics. -/

section Panics
variable {s : σ}

@[simp] theorem pure_panicked (a : α) : ((pure a : Call σ ε α) s).panicked = false := rfl

@[simp] theorem bind_panicked (x : Call σ ε α) (f : α → Call σ ε β) :
    ((x >>= f) s).panicked = true ↔
      (x s).panicked = true ∨ ∃ a u, x s = .ok a u ∧ (f a u).panicked = true := by
  show (match x s with
    | .ok a u => f a u
    | .err e u => .err e u
    | .panic r => .panic r : Outcome σ ε β).panicked = true ↔ _
  cases x s with
  | ok a u =>
      constructor
      · intro h
        exact .inr ⟨a, u, rfl, h⟩
      · rintro (⟨⟨⟩⟩ | ⟨_, _, ⟨⟩, h⟩)
        exact h
  | err e u => simp [Outcome.panicked]
  | panic r => simp [Outcome.panicked]

@[simp] theorem require_panicked (c : Bool) (e : ε) :
    ((require c e : Call σ ε Unit) s).panicked = false := by
  cases c <;> rfl

@[simp] theorem liftM_orPanic_panicked (o : Option α) (reason : String) :
    ((liftM (orPanic o reason) : Call σ ε α) s).panicked = true ↔ o = none := by
  cases o with
  | none => exact ⟨fun _ => rfl, fun _ => rfl⟩
  | some a => exact ⟨nofun, nofun⟩

theorem forM_cons_panicked (f : β → Call σ ε PUnit) (y : β) (ys : List β) :
    (List.forM (y :: ys) f s).panicked = true ↔
      (f y s).panicked = true ∨ ∃ m, f y s = .ok ⟨⟩ m ∧ (List.forM ys f m).panicked = true := by
  show ((f y >>= fun _ => List.forM ys f) s).panicked = true ↔ _
  rw [bind_panicked]
  constructor
  · rintro (h | ⟨v, m, hy, hys⟩)
    · exact .inl h
    · exact .inr ⟨m, hy, hys⟩
  · rintro (h | ⟨m, hy, hys⟩)
    · exact .inl h
    · exact .inr ⟨⟨⟩, m, hy, hys⟩

end Panics

section Commit
variable {s t : σ} {x : Call σ ε α}

theorem commit_ok {a : α} (h : x s = .ok a t) : commit x s = t := by
  simp only [commit, h]

theorem ok_commit {a : α} (h : (x s).returned = some a) : x s = .ok a (commit x s) := by
  obtain ⟨t, ht⟩ := returned_iff.mp h
  rw [commit_ok ht]
  exact ht

theorem commit_of_not_ok (h : ∀ a t, x s ≠ .ok a t) : commit x s = s := by
  unfold commit
  cases hx : x s with
  | ok a t => exact (h a t hx).elim
  | err e t => rfl
  | panic r => rfl

/-- Everything the boundary can do, guards included. -/
theorem commit_cases (x : Call σ ε α) (s : σ) :
    (∃ a, x s = .ok a (commit x s)) ∨ ((∀ a t, x s ≠ .ok a t) ∧ commit x s = s) := by
  cases hx : x s with
  | ok a t => exact .inl ⟨a, by rw [commit_ok hx]⟩
  | err e t =>
      refine .inr ⟨by simp, commit_of_not_ok ?_⟩
      simp [hx]
  | panic r =>
      refine .inr ⟨by simp, commit_of_not_ok ?_⟩
      simp [hx]

/-- A property of the old store that every returning call establishes again
survives the boundary. -/
theorem commit_preserves {P : σ → Prop} (hs : P s)
    (hx : ∀ a t, x s = .ok a t → P t) : P (commit x s) := by
  rcases commit_cases x s with ⟨a, h⟩ | ⟨-, h⟩
  · exact hx a _ h
  · rw [h]
    exact hs

end Commit

section Runs
variable {ι : Type}

/-- A sequence of inputs, each taken from the state the previous one left. -/
def run (step : σ → ι → σ) (s : σ) (is : List ι) : σ := is.foldl step s

@[simp] theorem run_nil (step : σ → ι → σ) (s : σ) : run step s [] = s := rfl

@[simp] theorem run_cons (step : σ → ι → σ) (s : σ) (i : ι) (is : List ι) :
    run step s (i :: is) = run step (step s i) is := rfl

theorem run_append (step : σ → ι → σ) (s : σ) (is js : List ι) :
    run step s (is ++ js) = run step (run step s is) js := List.foldl_append ..

theorem run_snoc (step : σ → ι → σ) (s : σ) (is : List ι) (i : ι) :
    run step s (is ++ [i]) = step (run step s is) i := run_append ..

/-- What one admitted input preserves, every run of admitted inputs preserves. -/
theorem run_invariant (P : σ → Prop) (admitted : ι → Prop) {step : σ → ι → σ}
    (hstep : ∀ s i, admitted i → P s → P (step s i)) (is : List ι) (s : σ)
    (hs : P s) (his : ∀ i ∈ is, admitted i) : P (run step s is) := by
  induction is generalizing s with
  | nil => exact hs
  | cons i is ih =>
      apply ih
      · exact hstep s i (his i (by simp)) hs
      · exact fun j hj => his j (by simp [hj])

/-- `P` holds of every input of a run together with the state it meets. -/
def Along (step : σ → ι → σ) (P : σ → ι → Prop) : σ → List ι → Prop
  | _, [] => True
  | s, i :: is => P s i ∧ Along step P (step s i) is

instance Along.instDecidable {step : σ → ι → σ} {P : σ → ι → Prop} [∀ s i, Decidable (P s i)] :
    ∀ s is, Decidable (Along step P s is)
  | _, [] => isTrue trivial
  | s, i :: is => @instDecidableAnd _ _ _ (instDecidable (step s i) is)

theorem Along.imp {step : σ → ι → σ} {P Q : σ → ι → Prop} (h : ∀ s i, P s i → Q s i)
    {is : List ι} {s : σ} (hP : Along step P s is) : Along step Q s is := by
  induction is generalizing s with
  | nil => trivial
  | cons i is ih => exact ⟨h s i hP.1, ih hP.2⟩

theorem along_append {step : σ → ι → σ} {P : σ → ι → Prop} {s : σ} {is js : List ι} :
    Along step P s (is ++ js) ↔ Along step P s is ∧ Along step P (run step s is) js := by
  induction is generalizing s with
  | nil => simp [Along]
  | cons i is ih => simp [Along, ih, and_assoc]

/-- An element of a list with a last one is that one or stands before it. -/
theorem snoc_eq_iff {later mid rest : List ι} {c d : ι} :
    later ++ [c] = mid ++ d :: rest ↔
      (rest = [] ∧ later = mid ∧ c = d) ∨ ∃ r, rest = r ++ [c] ∧ later = mid ++ d :: r := by
  constructor
  · intro h
    rcases List.eq_nil_or_concat rest with rfl | ⟨r, x, rfl⟩
    · obtain ⟨rfl, hcd⟩ := List.append_inj' h rfl
      exact .inl ⟨rfl, rfl, by simpa using hcd⟩
    · rw [List.concat_eq_append, ← List.cons_append, ← List.append_assoc] at h
      obtain ⟨rfl, hcx⟩ := List.append_inj' h rfl
      obtain rfl : c = x := by simpa using hcx
      exact .inr ⟨r, List.concat_eq_append, rfl⟩
  · rintro (⟨rfl, rfl, rfl⟩ | ⟨r, rfl, rfl⟩) <;> simp

/-- The inputs of a run and the states they meet, by position. -/
theorem along_iff {step : σ → ι → σ} {P : σ → ι → Prop} {s : σ} {is : List ι} :
    Along step P s is ↔
      ∀ before i later, is = before ++ i :: later → P (run step s before) i := by
  induction is generalizing s with
  | nil => simp [Along]
  | cons j js ih =>
      rw [Along, ih]
      constructor
      · rintro ⟨hj, hjs⟩ before i later h
        cases before with
        | nil =>
            obtain ⟨rfl, rfl⟩ := List.cons.inj h
            exact hj
        | cons b bs =>
            obtain ⟨rfl, hrest⟩ := List.cons.inj h
            exact hjs bs i later hrest
      · intro h
        refine ⟨h [] j js rfl, fun before i later hjs => ?_⟩
        exact h (j :: before) i later (by rw [hjs, List.cons_append])

/-- Two properties that agree wherever the invariant holds, one of which keeps
the invariant, agree along whole runs. -/
theorem along_congr {step : σ → ι → σ} {R P Q : σ → ι → Prop} (inv : σ → Prop)
    (hstep : ∀ s i, inv s → R s i → (P s i ↔ Q s i) ∧ (Q s i → inv (step s i)))
    (is : List ι) (s : σ) (hs : inv s) (hR : Along step R s is) :
    Along step P s is ↔ Along step Q s is := by
  induction is generalizing s with
  | nil => exact Iff.rfl
  | cons i is ih =>
      obtain ⟨hi, his⟩ := hR
      obtain ⟨hiff, hkeep⟩ := hstep s i hs hi
      constructor
      · rintro ⟨hP, hrest⟩
        have hQ := hiff.mp hP
        exact ⟨hQ, (ih _ (hkeep hQ) his).mp hrest⟩
      · rintro ⟨hQ, hrest⟩
        exact ⟨hiff.mpr hQ, (ih _ (hkeep hQ) his).mpr hrest⟩

end Runs

end Zytherion.GoCall
