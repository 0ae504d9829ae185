import Mathlib.Tactic

/-!
# Programs that may fail

Computations over a state that return or stop with an error.  `Runs m s Q`: started in
`s`, `m` returns something in `Q`.  `Yields m s Q E`: it does, or stops with an error
in `E`.
-/

namespace Xv6MallocLab

universe u

abbrev Fallible (σ ε α : Type u) := StateT σ (Except ε) α

variable {σ ε α β : Type u}

variable {m : Fallible σ ε α} {f : α → Fallible σ ε β} {s t : σ} {R : β → σ → Prop} {E : ε → Prop}

theorem bind_ok {s' : σ} {b : β} (h : (m >>= f) s = .ok (b, s')) :
    ∃ a t, m s = .ok (a, t) ∧ f a t = .ok (b, s') := by
  change (m s >>= fun p => f p.1 p.2) = _ at h
  cases hm : m s with
  | error e =>
    rw [hm] at h
    cases h
  | ok p =>
    rw [hm] at h
    exact ⟨p.1, p.2, rfl, h⟩

variable {a : α} {x : Except ε α} {g : σ → σ} {τ : Type u} {view : σ → τ} {put : σ → τ → σ}
  {Q : α → τ → Prop} {Q' : α → σ → Prop}

theorem bind_of_ok (h : m s = .ok (a, t)) : (m >>= f) s = f a t := by
  change (m s >>= fun p => f p.1 p.2) = _
  rw [h]
  rfl

theorem bind_of_error {e : ε} (h : m s = .error e) : (m >>= f) s = .error e := by
  change (m s >>= fun p => f p.1 p.2) = _
  rw [h]
  rfl

theorem bind_eq_of_eq {m' : Fallible σ ε α} (h : m s = m' t) : (m >>= f) s = (m' >>= f) t := by
  change (m s >>= fun p => f p.1 p.2) = (m' t >>= fun p => f p.1 p.2)
  rw [h]

theorem ok_of_toOption (h : x.toOption = some a) : x = .ok a := by
  cases x with
  | error e => cases h
  | ok a' => exact congrArg Except.ok (Option.some.inj h)

theorem ok_of_any {f : α → Bool} (h : x.toOption.any f = true) : ∃ a, x = .ok a ∧ f a = true := by
  cases x with
  | error e => cases h
  | ok a => exact ⟨a, rfl, h⟩

def Runs (m : Fallible σ ε α) (s : σ) (Q : α → σ → Prop) : Prop :=
  ∃ a s', m s = .ok (a, s') ∧ Q a s'

namespace Runs

variable {m : Fallible σ ε α} {f : α → Fallible σ ε β} {s : σ} {P Q : α → σ → Prop} {R : β → σ → Prop}

theorem mono (h : Runs m s P) (hPQ : ∀ a s', P a s' → Q a s') : Runs m s Q := by
  obtain ⟨a, s', hm, hP⟩ := h
  exact ⟨a, s', hm, hPQ a s' hP⟩

variable {a : α}

theorem pure (h : Q a s) : Runs (pure a : Fallible σ ε α) s Q := ⟨a, s, rfl, h⟩

theorem bind (hm : Runs m s P) (hf : ∀ a s', P a s' → Runs (f a) s' R) : Runs (m >>= f) s R := by
  obtain ⟨a, s', hma, hP⟩ := hm
  obtain ⟨b, s'', hfb, hR⟩ := hf a s' hP
  refine ⟨b, s'', ?_, hR⟩
  rw [bind_of_ok hma, hfb]

theorem of_eq {s' : σ} (h : Runs m s Q) (hm : m s = .ok (a, s')) : Q a s' := by
  obtain ⟨b, t, hb, hQ⟩ := h
  rw [hm] at hb
  cases hb
  exact hQ

theorem and {Q' : α → σ → Prop} (h : Runs m s Q) (h' : Runs m s Q') :
    Runs m s fun a s' => Q a s' ∧ Q' a s' := by
  obtain ⟨a, s', hm, hQ⟩ := h
  exact ⟨a, s', hm, hQ, h'.of_eq hm⟩

end Runs

theorem runs_bind_of_ok (h : m s = .ok (a, t)) (hf : Runs (f a) t R) : Runs (m >>= f) s R := by
  unfold Runs
  rw [bind_of_ok h]
  exact hf

theorem runs_get_bind {f : σ → Fallible σ ε β} (h : Runs (f s) s R) : Runs (get >>= f) s R := h

theorem runs_set_bind {f : PUnit → Fallible σ ε β} (h : Runs (f ⟨⟩) t R) :
    Runs (set t >>= f) s R := h

theorem runs_modify_bind {f : PUnit → Fallible σ ε β} (h : Runs (f ⟨⟩) (g s) R) :
    Runs (modify g >>= f) s R := h

def Yields (m : Fallible σ ε α) (s : σ) (Q : α → σ → Prop) (E : ε → Prop) : Prop :=
  (∃ a s', m s = .ok (a, s') ∧ Q a s') ∨ ∃ e, m s = .error e ∧ E e

theorem Runs.yields {Q : α → σ → Prop} (h : Runs m s Q) (E : ε → Prop) : Yields m s Q E := Or.inl h

namespace Yields

variable {m : Fallible σ ε α} {f : α → Fallible σ ε β} {s : σ} {P Q : α → σ → Prop}
  {R : β → σ → Prop} {E : ε → Prop}

theorem mono (h : Yields m s P E) (hPQ : ∀ a s', P a s' → Q a s') : Yields m s Q E := by
  rcases h with h | h
  · exact Or.inl (Runs.mono h hPQ)
  · exact Or.inr h

variable {a : α} {e : ε}

theorem pure (h : Q a s) : Yields (pure a : Fallible σ ε α) s Q E := (Runs.pure h).yields E

theorem throw (h : E e) : Yields (throw e : Fallible σ ε α) s Q E := Or.inr ⟨e, rfl, h⟩

theorem bind (hm : Yields m s P E) (hf : ∀ a s', P a s' → Yields (f a) s' R E) :
    Yields (m >>= f) s R E := by
  rcases hm with ⟨a, s', hma, hP⟩ | ⟨e, hme, hE⟩
  · simpa only [Yields, bind_of_ok hma] using hf a s' hP
  · refine Or.inr ⟨e, ?_, hE⟩
    change (m s >>= fun p => f p.1 p.2) = _
    rw [hme]
    rfl

theorem of_ok {s' : σ} (h : Yields m s Q E) (hm : m s = .ok (a, s')) : Q a s' := by
  rcases h with h | ⟨e, he, -⟩
  · exact Runs.of_eq h hm
  · rw [hm] at he
    cases he

theorem of_error (h : Yields m s Q E) (hm : m s = .error e) : E e := by
  rcases h with ⟨a, s', ha, -⟩ | ⟨e', he, hE⟩
  · rw [hm] at ha
    cases ha
  · rw [hm] at he
    cases he
    exact hE

end Yields

theorem yields_get_bind {f : σ → Fallible σ ε β} (h : Yields (f s) s R E) :
    Yields (get >>= f) s R E := h

theorem yields_set_bind {f : PUnit → Fallible σ ε β} (h : Yields (f ⟨⟩) t R E) :
    Yields (set t >>= f) s R E := h

theorem yields_modify_bind {f : PUnit → Fallible σ ε β} (h : Yields (f ⟨⟩) (g s) R E) :
    Yields (modify g >>= f) s R E := h

def Fallible.zoom {τ : Type u} (view : σ → τ) (put : σ → τ → σ) (m : Fallible τ ε α) :
    Fallible σ ε α := fun s =>
  match m (view s) with
  | .ok (a, t) => .ok (a, put s t)
  | .error e => .error e

theorem Runs.zoom {m : Fallible τ ε α} (h : Runs m (view s) Q)
    (hQ : ∀ a t, Q a t → Q' a (put s t)) : Runs (Fallible.zoom view put m) s Q' := by
  obtain ⟨a, t, hm, ht⟩ := h
  refine ⟨a, put s t, ?_, hQ a t ht⟩
  rw [Fallible.zoom, hm]

theorem Yields.zoom {m : Fallible τ ε α} (h : Yields m (view s) Q E)
    (hQ : ∀ a t, Q a t → Q' a (put s t)) : Yields (Fallible.zoom view put m) s Q' E := by
  rcases h with h | ⟨e, he, hE⟩
  · exact (Runs.zoom h hQ).yields E
  · refine Or.inr ⟨e, ?_, hE⟩
    rw [Fallible.zoom, he]

/-- `m` returns and stops as `m'` does on the part `view` of the state, up to `f`. -/
def Projects {τ : Type u} (view : σ → τ) (f : α → β) (m : Fallible σ ε α) (m' : Fallible τ ε β) : Prop :=
  ∀ s, (m s).map (fun x => (f x.1, view x.2)) = m' (view s)

namespace Projects

variable {τ γ δ : Type u} {view : σ → τ} {f : α → β} {g : γ → δ}

theorem pure (f : α → β) (a : α) : Projects view f (pure a : Fallible σ ε α) (pure (f a)) := fun _ => rfl

theorem throw (f : α → β) (e : ε) : Projects view f (throw e : Fallible σ ε α) (throw e) := fun _ => rfl

theorem zoom {put : σ → τ → σ} (hput : ∀ s x, view (put s x) = x) (m : Fallible τ ε α) :
    Projects view id (Fallible.zoom view put m) m := by
  intro s
  rw [Fallible.zoom]
  cases m (view s) with
  | error e => rfl
  | ok x => exact congrArg (fun y => Except.ok (x.1, y)) (hput s x.2)

variable {m : Fallible σ ε α} {m' : Fallible τ ε β}

variable {k : α → Fallible σ ε γ} {k' : β → Fallible τ ε δ}

theorem bind_of (hm : Projects view f m m')
    (hk : ∀ s a s', m s = .ok (a, s') → Projects view g (k a) (k' (f a))) :
    Projects view g (m >>= k) (m' >>= k') := by
  intro s
  have hs := hm s
  change (m s >>= fun x => k x.1 x.2).map _ = (m' (view s) >>= fun x => k' x.1 x.2)
  rw [← hs]
  cases hx : m s with
  | error e => rfl
  | ok x => exact hk s x.1 x.2 hx x.2

theorem bind (hm : Projects view f m m') (hk : ∀ a, Projects view g (k a) (k' (f a))) :
    Projects view g (m >>= k) (m' >>= k') :=
  hm.bind_of fun _ a _ _ => hk a

theorem get_bind {k : σ → Fallible σ ε α} {k' : τ → Fallible τ ε β}
    (hk : ∀ s, Projects view f (k s) (k' (view s))) :
    Projects view f (get >>= k) (get >>= k') := fun s => hk s s

theorem runs (h : Projects view f m m') {s : σ} {Q : β → τ → Prop} (hm : Runs m' (view s) Q) :
    Runs m s fun a s' => Q (f a) (view s') := by
  obtain ⟨b, t, hb, hQ⟩ := hm
  rw [← h s] at hb
  cases hms : m s with
  | error e =>
    rw [hms] at hb
    cases hb
  | ok x =>
    rw [hms] at hb
    cases hb
    exact ⟨x.1, x.2, hms, hQ⟩

end Projects

end Xv6MallocLab
