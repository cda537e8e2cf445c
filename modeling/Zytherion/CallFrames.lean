import Zytherion.GoCall

/-!
# What a call leaves alone

`Keeps view x` says that the part of the store that `view` reads is the same
after `x` as before, whether `x` returned or failed. There is one rule for each
way of building a call, so that a frame is proved along the text of a function.

`Maintains P x` says that `x` does not break `P`, again whether it returned or
failed. What a call keeps it maintains, so that only the calls that write what
`P` is about need an argument of their own.

`Clean x` says that `x` leaves the whole store alone if it returns an error,
`NoPanic x` that it returns, and `Raises P x` that its errors have `P`.
-/
namespace Zytherion.GoCall

variable {σ ε α β γ : Type}

/-- The store a call left, unless it panicked. -/
def Outcome.left : Outcome σ ε α → Option σ
  | ok _ s => some s
  | err _ s => some s
  | panic _ => none

def Keeps (view : σ → γ) (x : Call σ ε α) : Prop := ∀ s t, (x s).left = some t → view t = view s

namespace Keeps
variable {view : σ → γ} {x : Call σ ε α} {s t : σ}

theorem ok (hx : Keeps view x) {a : α} (h : x s = .ok a t) : view t = view s :=
  hx s t (by rw [h]; rfl)

theorem err (hx : Keeps view x) {e : ε} (h : x s = .err e t) : view t = view s :=
  hx s t (by rw [h]; rfl)

/-- A call that leaves every outcome over the store it began with. -/
theorem of_read (h : ∀ s t, (x s).left = some t → t = s) : Keeps view x :=
  fun s t hx => congrArg view (h s t hx)

theorem map (f : γ → β) (hx : Keeps view x) : Keeps (fun s => f (view s)) x :=
  fun s t h => congrArg f (hx s t h)

theorem pure (a : α) : Keeps view (Pure.pure a : Call σ ε α) :=
  of_read fun _ _ h => (Option.some.inj h).symm

theorem liftM (c : Checked α) : Keeps view (liftM c : Call σ ε α) := by
  apply of_read
  intro s t h
  cases c with
  | ok a => exact (Option.some.inj h).symm
  | error r => exact absurd h (by rintro ⟨⟩)

theorem gets (f : σ → α) : Keeps view (GoCall.gets f : Call σ ε α) :=
  of_read fun _ _ h => (Option.some.inj h).symm

theorem require (b : Bool) (e : ε) : Keeps view (GoCall.require b e : Call σ ε Unit) := by
  apply of_read
  intro s t h
  cases b <;> exact (Option.some.inj h).symm

theorem lookup (f : σ → Option α) (e : ε) : Keeps view (GoCall.lookup f e : Call σ ε α) := by
  apply of_read
  intro s t h
  unfold GoCall.lookup at h
  cases hf : f s <;> rw [hf] at h <;> exact (Option.some.inj h).symm

theorem ofExcept (c : Except ε α) : Keeps view (GoCall.ofExcept c : Call σ ε α) := by
  apply of_read
  intro s t h
  cases c <;> exact (Option.some.inj h).symm

theorem modifyStore {f : σ → σ} (h : ∀ s, view (f s) = view s) :
    Keeps view (GoCall.modifyStore f : Call σ ε Unit) := by
  intro s t ht
  obtain rfl : f s = t := Option.some.inj ht
  exact h s

theorem bind {f : α → Call σ ε β} (hx : Keeps view x) (hf : ∀ a, Keeps view (f a)) :
    Keeps view (x >>= f) := by
  intro s t h
  change Outcome.left (match x s with
    | .ok a u => f a u
    | .err e u => .err e u
    | .panic r => .panic r) = some t at h
  cases hr : x s with
  | ok a u =>
      rw [hr] at h
      exact (hf a u t h).trans (hx.ok hr)
  | err e u =>
      rw [hr] at h
      obtain rfl : u = t := Option.some.inj h
      exact hx.err hr
  | panic r =>
      rw [hr] at h
      exact absurd h (by rintro ⟨⟩)

/-- Renaming an outcome leaves its store. -/
theorem of_left {y : Call σ ε β} (hx : Keeps view x) (h : ∀ s, (y s).left = (x s).left) :
    Keeps view y := fun s t ht => hx s t (by rw [← h, ht])

theorem mapErr (g : ε → ε) (hx : Keeps view x) : Keeps view (GoCall.mapErr g x) := by
  apply hx.of_left
  intro s
  unfold GoCall.mapErr
  cases x s <;> rfl

theorem attempt (hx : Keeps view x) : Keeps view (GoCall.attempt x) := by
  apply hx.of_left
  intro s
  unfold GoCall.attempt
  cases x s <;> rfl

theorem ignoreErr (hx : Keeps view x) : Keeps view (GoCall.ignoreErr x) := by
  apply hx.of_left
  intro s
  unfold GoCall.ignoreErr
  cases x s <;> rfl

theorem must (reason : ε → String) (hx : Keeps view x) : Keeps view (GoCall.must reason x) := by
  intro s t h
  apply hx s t
  unfold GoCall.must at h
  cases hr : x s with
  | err e u =>
      rw [hr] at h
      exact absurd h (by rintro ⟨⟩)
  | _ =>
      rw [hr] at h
      exact h

theorem zoom {τ δ : Type} {part : τ → σ} {put : τ → σ → τ} {outer : τ → δ} (hx : Keeps view x)
    (hput : ∀ w t, view t = view (part w) → outer (put w t) = outer w) :
    Keeps outer (GoCall.zoom part put x) := by
  intro w w' h
  unfold GoCall.zoom at h
  cases hr : x (part w) with
  | ok a t =>
      rw [hr] at h
      obtain rfl : put w t = w' := Option.some.inj h
      exact hput w t (hx.ok hr)
  | err e t =>
      rw [hr] at h
      obtain rfl : put w t = w' := Option.some.inj h
      exact hput w t (hx.err hr)
  | panic r =>
      rw [hr] at h
      exact absurd h (by rintro ⟨⟩)

theorem ite {c : Prop} [Decidable c] {y : Call σ ε α} (hx : Keeps view x) (hy : Keeps view y) :
    Keeps view (if c then x else y) := by
  split
  · exact hx
  · exact hy

theorem forM {f : β → Call σ ε PUnit} (hf : ∀ b, Keeps view (f b)) (bs : List β) :
    Keeps view (List.forM bs f) := by
  induction bs with
  | nil => exact .pure _
  | cons b bs ih => exact .bind (hf b) fun _ => ih

end Keeps

def Maintains (P : σ → Prop) (x : Call σ ε α) : Prop := ∀ s t, (x s).left = some t → P s → P t

namespace Maintains
variable {P : σ → Prop} {x : Call σ ε α} {s t : σ}

theorem ok (hx : Maintains P x) {a : α} (h : x s = .ok a t) (hs : P s) : P t :=
  hx s t (by rw [h]; rfl) hs

/-- What depends only on a part that is kept is maintained. -/
theorem of_keeps {view : σ → γ} (hP : ∀ s t, view t = view s → P s → P t) (hx : Keeps view x) :
    Maintains P x := fun s t h => hP s t (hx s t h)

theorem modifyStore {f : σ → σ} (h : ∀ s, P s → P (f s)) :
    Maintains P (GoCall.modifyStore f : Call σ ε Unit) := by
  intro s t ht hs
  obtain rfl : f s = t := Option.some.inj ht
  exact h s hs

/-- The rest of a call may rely on what `Q` says about the result. -/
theorem bind_of {f : α → Call σ ε β} (Q : α → Prop) (hx : Maintains P x)
    (hq : ∀ s a t, P s → x s = .ok a t → Q a) (hf : ∀ a, Q a → Maintains P (f a)) :
    Maintains P (x >>= f) := by
  intro s t h hs
  change Outcome.left (match x s with
    | .ok a u => f a u
    | .err e u => .err e u
    | .panic r => .panic r) = some t at h
  cases hr : x s with
  | ok a u =>
      rw [hr] at h
      exact hf a (hq s a u hs hr) u t h (hx.ok hr hs)
  | err e u =>
      rw [hr] at h
      exact hx s t (by rw [hr]; exact h) hs
  | panic r =>
      rw [hr] at h
      exact absurd h (by rintro ⟨⟩)

theorem bind {f : α → Call σ ε β} (hx : Maintains P x) (hf : ∀ a, Maintains P (f a)) :
    Maintains P (x >>= f) :=
  hx.bind_of (fun _ => True) (fun _ _ _ _ _ => trivial) fun a _ => hf a

/-- A call that only reads, and what it reads is known. -/
theorem bind_read {a : α} {f : α → Call σ ε β} (hx : ∀ s, x s = .ok a s)
    (hf : Maintains P (f a)) : Maintains P (x >>= f) := by
  intro s t h
  rw [bind_of_ok (hx s)] at h
  exact hf s t h

theorem mapErr (g : ε → ε) (hx : Maintains P x) : Maintains P (GoCall.mapErr g x) := by
  intro s t h
  apply hx s t
  rw [← h]
  unfold GoCall.mapErr
  cases x s <;> rfl

theorem ite {c : Prop} [Decidable c] {y : Call σ ε α} (hx : Maintains P x)
    (hy : Maintains P y) : Maintains P (if c then x else y) := by
  split
  · exact hx
  · exact hy

theorem zoom {τ : Type} {part : τ → σ} {put : τ → σ → τ} {Q : τ → Prop} (hx : Maintains P x)
    (hin : ∀ w, Q w → P (part w)) (hout : ∀ w t, Q w → P t → Q (put w t)) :
    Maintains Q (GoCall.zoom part put x) := by
  intro w w' h hw
  unfold GoCall.zoom at h
  cases hr : x (part w) with
  | ok a t =>
      rw [hr] at h
      obtain rfl : put w t = w' := Option.some.inj h
      exact hout w t hw (hx.ok hr (hin w hw))
  | err e t =>
      rw [hr] at h
      obtain rfl : put w t = w' := Option.some.inj h
      exact hout w t hw (hx _ t (by rw [hr]; rfl) (hin w hw))
  | panic r =>
      rw [hr] at h
      exact absurd h (by rintro ⟨⟩)

theorem forM {f : β → Call σ ε PUnit} (hf : ∀ b, Maintains P (f b)) (bs : List β) :
    Maintains P (List.forM bs f) := by
  induction bs with
  | nil =>
      have hkeeps : Keeps id (List.forM [] f) := .pure _
      refine .of_keeps ?_ hkeeps
      rintro s _ rfl hs
      exact hs
  | cons b bs ih => exact .bind (hf b) fun _ => ih

theorem commit (hx : Maintains P x) (hs : P s) : P (GoCall.commit x s) :=
  commit_preserves hs fun _ _ h => hx.ok h hs

end Maintains

/-- A call that returns an error leaves the store it began with. -/
def Clean (x : Call σ ε α) : Prop := ∀ s e t, x s = .err e t → t = s

namespace Clean

theorem modifyStore (f : σ → σ) : Clean (GoCall.modifyStore f : Call σ ε Unit) :=
  fun _ _ _ h => by cases h

/-- Only the last part of a call may write. -/
theorem bind {x : Call σ ε α} {f : α → Call σ ε β} (hx : Keeps id x) (hf : ∀ a, Clean (f a)) :
    Clean (x >>= f) := by
  intro s e t h
  rcases (bind_err x f).mp h with herr | ⟨a, u, hok, herr⟩
  · exact hx.err herr
  · rw [hf a u e t herr]
    exact hx.ok hok

end Clean

/-- A call that returns, be it with an error. -/
def NoPanic (x : Call σ ε α) : Prop := ∀ s r, x s ≠ .panic r

namespace NoPanic

theorem require (b : Bool) (e : ε) : NoPanic (GoCall.require b e : Call σ ε Unit) := by
  intro s r h
  cases b <;> cases h

theorem ofExcept (c : Except ε α) : NoPanic (GoCall.ofExcept c : Call σ ε α) := by
  intro s r h
  cases c <;> cases h

theorem gets (f : σ → α) : NoPanic (GoCall.gets f : Call σ ε α) :=
  fun _ _ h => by cases h

theorem lookup (f : σ → Option α) (e : ε) : NoPanic (GoCall.lookup f e : Call σ ε α) := by
  intro s r h
  unfold GoCall.lookup at h
  cases hf : f s <;> rw [hf] at h <;> cases h

theorem mapErr {x : Call σ ε α} (g : ε → ε) (hx : NoPanic x) : NoPanic (GoCall.mapErr g x) := by
  intro s r h
  unfold GoCall.mapErr at h
  cases hs : x s with
  | panic r' => exact hx s r' hs
  | _ =>
      rw [hs] at h
      cases h

theorem modifyStore (f : σ → σ) : NoPanic (GoCall.modifyStore f : Call σ ε Unit) :=
  fun _ _ h => by cases h

theorem bind {x : Call σ ε α} {f : α → Call σ ε β} (hx : NoPanic x) (hf : ∀ a, NoPanic (f a)) :
    NoPanic (x >>= f) := by
  intro s r h
  change (match x s with
    | .ok a u => f a u
    | .err e u => .err e u
    | .panic r => .panic r) = Outcome.panic r at h
  cases hs : x s with
  | ok a u =>
      rw [hs] at h
      exact hf a u r h
  | err e u =>
      rw [hs] at h
      cases h
  | panic r' => exact hx s r' hs

theorem ignoreErr {x : Call σ ε α} (hx : NoPanic x) (s : σ) :
    ∃ t, GoCall.ignoreErr x s = .ok () t := by
  cases hs : x s with
  | ok a t => exact ⟨t, (ignoreErr_ok x ()).mpr (.inl ⟨a, hs⟩)⟩
  | err e t => exact ⟨t, (ignoreErr_ok x ()).mpr (.inr ⟨e, hs⟩)⟩
  | panic r => exact (hx s r hs).elim

theorem pure (a : α) : NoPanic (Pure.pure a : Call σ ε α) := fun _ _ h => by cases h

theorem ite {c : Prop} [Decidable c] {x y : Call σ ε α} (hx : NoPanic x) (hy : NoPanic y) :
    NoPanic (if c then x else y) := by
  split
  · exact hx
  · exact hy

end NoPanic

def Raises (P : ε → Prop) (x : Call σ ε α) : Prop := ∀ s e t, x s = .err e t → P e

namespace Raises
variable {P : ε → Prop} {x : Call σ ε α}

theorem pure (a : α) : Raises P (Pure.pure a : Call σ ε α) := fun _ _ _ h => by cases h

theorem gets (f : σ → α) : Raises P (GoCall.gets f : Call σ ε α) := fun _ _ _ h => by cases h

theorem modifyStore (f : σ → σ) : Raises P (GoCall.modifyStore f : Call σ ε Unit) :=
  fun _ _ _ h => by cases h

theorem liftM (c : Checked α) : Raises P (liftM c : Call σ ε α) := by
  intro s e t h
  exact ((liftM_err c).mp h).elim

theorem bind {f : α → Call σ ε β} (hx : Raises P x) (hf : ∀ a, Raises P (f a)) :
    Raises P (x >>= f) := by
  intro s e t h
  rcases (bind_err x f).mp h with herr | ⟨a, u, -, herr⟩
  · exact hx s e t herr
  · exact hf a u e t herr

theorem require {b : Bool} {e : ε} (h : P e) : Raises P (GoCall.require b e : Call σ ε Unit) := by
  intro s e' t hs
  cases b with
  | true => cases hs
  | false =>
      cases hs
      exact h

theorem lookup {f : σ → Option α} {e : ε} (h : P e) :
    Raises P (GoCall.lookup f e : Call σ ε α) := by
  intro s e' t hs
  unfold GoCall.lookup at hs
  cases hf : f s with
  | some a =>
      rw [hf] at hs
      cases hs
  | none =>
      rw [hf] at hs
      cases hs
      exact h

theorem ofExcept {c : Except ε α} (h : ∀ e, c = .error e → P e) :
    Raises P (GoCall.ofExcept c : Call σ ε α) := by
  intro s e t hs
  cases c with
  | ok a => cases hs
  | error e' =>
      cases hs
      exact h e rfl

/-- Whatever the errors were, they have been rewritten. -/
theorem mapErr {g : ε → ε} (hg : ∀ e, P (g e)) (x : Call σ ε α) :
    Raises P (GoCall.mapErr g x) := by
  intro s e t h
  unfold GoCall.mapErr at h
  cases hx : x s with
  | err e' u =>
      rw [hx] at h
      cases h
      exact hg e'
  | _ =>
      rw [hx] at h
      cases h

theorem ignoreErr (x : Call σ ε α) : Raises P (GoCall.ignoreErr x) := by
  intro s e t h
  unfold GoCall.ignoreErr at h
  cases hx : x s with
  | _ =>
      rw [hx] at h
      cases h

theorem ite {c : Prop} [Decidable c] {y : Call σ ε α} (hx : Raises P x) (hy : Raises P y) :
    Raises P (if c then x else y) := by
  split
  · exact hx
  · exact hy

end Raises

end Zytherion.GoCall
