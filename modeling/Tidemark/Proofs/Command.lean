import Tidemark.Command

/-! Reasoning about commands. A command is followed from a state to what holds once it has answered
or failed, or side by side with a second run of the same command that may be stopped on the way;
either is known of a composed command when it is known of its parts. -/

namespace Tidemark

namespace Command

variable {σ τ β γ : Type}

/-- The answer or failure of a command. -/
def answer (c : Command σ β) (s : σ) : Except Error β :=
  match c s with
  | .ok x _ => .ok x
  | .error e _ => .error e

/-- The state after a command, whether it answered or failed. -/
def after (c : Command σ β) (s : σ) : σ :=
  match c s with
  | .ok _ s' => s'
  | .error _ s' => s'

theorem answer_eq_ok {c : Command σ β} {s : σ} {x : β} :
    c.answer s = .ok x ↔ ∃ s', c s = .ok x s' := by
  unfold answer
  cases c s with
  | ok y s' => simp
  | error e s' => simp

theorem after_map (f : β → γ) (c : Command σ β) (s : σ) : (f <$> c).after s = c.after s := by
  unfold after
  simp only [Functor.map, EStateM.map]
  cases c s <;> rfl

theorem after_bind (c : Command σ β) (k : β → Command σ γ) (s : σ) :
    (c >>= k).after s =
      match c s with
      | .ok x s' => (k x).after s'
      | .error _ s' => s' := by
  unfold after
  rw [run_bind]
  cases c s <;> rfl

theorem after_mapError (f : Error → Error) (c : Command σ β) (s : σ) :
    (c.mapError f).after s = c.after s := by
  unfold after mapError
  cases c s <;> rfl

theorem after_focus (part : σ → τ) (replace : σ → τ → σ) (c : Command τ β) (s : σ) :
    (c.focus part replace).after s = replace s (c.after (part s)) := by
  unfold after focus
  cases c (part s) <;> rfl

theorem answer_map (f : β → γ) (c : Command σ β) (s : σ) :
    (f <$> c).answer s = (c.answer s).map f := by
  unfold answer
  simp only [Functor.map, EStateM.map]
  cases c s <;> rfl

theorem run_of_answer {c : Command σ β} {s : σ} {x : β} (h : (c.answer s).toOption = some x) :
    c s = .ok x (c.after s) := by
  unfold answer at h
  unfold after
  cases hrun : c s with
  | ok y s' =>
    rw [hrun] at h
    rw [Option.some.inj h]
  | error e s' =>
    rw [hrun] at h
    cases h

/-- A composed command that has answered, taken apart. -/
theorem ok_of_bind {c : Command σ β} {k : β → Command σ γ} {s s' : σ} {y : γ}
    (h : (c >>= k) s = .ok y s') : ∃ x s₁, c s = .ok x s₁ ∧ k x s₁ = .ok y s' := by
  rw [run_bind] at h
  cases hc : c s with
  | ok x s₁ =>
    rw [hc] at h
    exact ⟨x, s₁, rfl, h⟩
  | error e s₁ =>
    rw [hc] at h
    cases h

theorem run_get_bind (k : σ → Command σ β) (s : σ) : (get >>= k) s = k s s := rfl

theorem run_forM_cons {f : γ → Command σ Unit} {x : γ} {s s' : σ} (h : f x s = .ok () s')
    (l : List γ) : (x :: l).forM f s = l.forM f s' := by
  show (f x >>= fun _ => l.forM f) s = _
  rw [run_bind, h]

theorem run_forM_append (f : γ → Command σ Unit) (xs ys : List γ) (s : σ) :
    (xs ++ ys).forM f s =
      match xs.forM f s with
      | .ok _ s' => ys.forM f s'
      | .error e s' => .error e s' := by
  have happend : (xs ++ ys).forM f = (xs.forM f >>= fun _ => ys.forM f) := List.forM_append
  rw [happend, run_bind]
  cases xs.forM f s <;> rfl

theorem run_inContext {c : Command σ β} {s s' : σ} {x : β} (h : c s = .ok x s')
    (context : String) : c.inContext context s = .ok x s' := by
  rw [inContext, mapError, h]

/-! ### Composition -/

/-- A property of commands that a composed command has when its parts have it. -/
structure Composes (P : ∀ {β : Type}, Command σ β → Prop) : Prop where
  pure : ∀ {β : Type} (x : β), P (pure x)
  bind : ∀ {β γ : Type} {c : Command σ β} {k : β → Command σ γ},
    P c → (∀ x, P (k x)) → P (c >>= k)

namespace Composes

variable {P : ∀ {β : Type}, Command σ β → Prop}

theorem ite (_ : Composes P) (p : Prop) [Decidable p] {c d : Command σ β} (hc : P c) (hd : P d) :
    P (if p then c else d) := by
  split
  · exact hc
  · exact hd

variable (hP : Composes P)

include hP

theorem map {c : Command σ β} (hc : P c) (f : β → γ) : P (f <$> c) := by
  rw [map_eq_pure_bind]
  exact hP.bind hc fun x => hP.pure (f x)

theorem forM {f : γ → Command σ Unit} (hf : ∀ x, P (f x)) : ∀ l : List γ, P (l.forM f)
  | [] => hP.pure ()
  | x :: l => hP.bind (hf x) fun _ => forM hf l

theorem foldlM {δ : Type} {f : γ → δ → Command σ γ} (hf : ∀ x y, P (f x y)) :
    ∀ (l : List δ) (x : γ), P (l.foldlM f x)
  | [], x => hP.pure x
  | y :: l, x => by
    rw [List.foldlM_cons]
    exact hP.bind (hf x y) fun z => foldlM hf l z

end Composes

/-! ### What holds afterwards -/

/-- When `c` answers, `post` holds afterwards; when it fails, it does so for good, or `mild`
holds. -/
def Leads (c : Command σ β) (s : σ) (mild : Error → σ → Prop) (post : σ → Prop) : Prop :=
  match c s with
  | .ok _ s' => post s'
  | .error e s' => e.isFatal ∨ mild e s'

variable {c : Command σ β} {k : β → Command σ γ} {s : σ} {mild : Error → σ → Prop}
  {post : σ → Prop}

theorem Leads.bind {mid : σ → Prop} (hc : Leads c s mild mid)
    (hk : ∀ x s', mid s' → Leads (k x) s' mild post) : Leads (c >>= k) s mild post := by
  unfold Leads at hc ⊢
  rw [run_bind]
  cases hrun : c s with
  | ok x s' =>
    rw [hrun] at hc
    exact hk x s' hc
  | error e s' =>
    rw [hrun] at hc
    exact hc

theorem Leads.mono {mild' : Error → σ → Prop} {post' : σ → Prop} (hc : Leads c s mild' post')
    (hmild : ∀ e s', mild' e s' → mild e s') (hpost : ∀ s', post' s' → post s') :
    Leads c s mild post := by
  unfold Leads at hc ⊢
  cases hrun : c s with
  | ok x s' =>
    rw [hrun] at hc
    exact hpost s' hc
  | error e s' =>
    rw [hrun] at hc
    exact hc.imp_right (hmild e s')

/-- A command that has answered. -/
theorem Leads.of_ok (hc : Leads c s mild post) {x : β} {s' : σ} (h : c s = .ok x s') : post s' := by
  unfold Leads at hc
  rwa [h] at hc

theorem leads_get {k : σ → Command σ β} (h : Leads (k s) s mild post) :
    Leads (get >>= k) s mild post := h

theorem leads_set {s' : σ} {k : PUnit → Command σ β} (h : Leads (k ⟨⟩) s' mild post) :
    Leads (set s' >>= k) s mild post := h

theorem leads_ofExcept {x : Except Error β} (hok : post s)
    (herr : ∀ e, x = .error e → mild e s) : Leads (ofExcept x) s mild post := by
  cases x with
  | ok x => exact hok
  | error e => exact .inr (herr e rfl)

/-- A loop keeps what each of its rounds keeps; `inv` may speak of the rounds that are done. -/
theorem leads_forM {f : γ → Command σ Unit} {l : List γ} (inv : List γ → σ → Prop)
    (hstep : ∀ fore x rest, l = fore ++ x :: rest → ∀ s, inv fore s →
      Leads (f x) s mild (inv (fore ++ [x])))
    (hs : inv [] s) : Leads (l.forM f) s mild (inv l) := by
  suffices h : ∀ rest fore s, l = fore ++ rest → inv fore s →
      Leads (rest.forM f) s mild (inv l) from h l [] s rfl hs
  intro rest
  induction rest with
  | nil =>
    intro fore s hl hfore
    rw [hl, List.append_nil]
    exact hfore
  | cons x rest ih =>
    intro fore s hl hfore
    refine (hstep fore x rest hl s hfore).bind fun _ s' hs' => ?_
    exact ih (fore ++ [x]) s' (by simp [hl]) hs'

/-- A command on a part of the state. -/
theorem leads_focus {part : σ → τ} {replace : σ → τ → σ} {c : Command τ β}
    {mild' : Error → τ → Prop} {post' : τ → Prop} (hc : Leads c (part s) mild' post')
    (hmild : ∀ e t, mild' e t → mild e (replace s t)) (hpost : ∀ t, post' t → post (replace s t)) :
    Leads (c.focus part replace) s mild post := by
  unfold Leads at hc ⊢
  unfold focus
  cases hrun : c (part s) with
  | ok x t =>
    rw [hrun] at hc
    exact hpost t hc
  | error e t =>
    rw [hrun] at hc
    exact hc.imp_right (hmild e t)

/-- `c` keeps `inv`, unless it fails: then for good, or such that `mild` holds. -/
def Keeps (mild : Error → σ → Prop) (inv : σ → Prop) (c : Command σ β) : Prop :=
  ∀ s, inv s → Leads c s mild inv

variable {inv : σ → Prop}

theorem keeps_pure (x : β) : Keeps mild inv (pure x) := fun _ h => h

theorem keeps_ofExcept (x : Except Error β) : Keeps (fun _ => inv) inv (ofExcept x) :=
  fun _ h => leads_ofExcept h fun _ _ => h

theorem Keeps.bind (hc : Keeps mild inv c) (hk : ∀ x, Keeps mild inv (k x)) :
    Keeps mild inv (c >>= k) := fun s h => (hc s h).bind hk

theorem composes_keeps : Composes (Keeps mild inv) := ⟨keeps_pure, Keeps.bind⟩

theorem keeps_get {k : σ → Command σ β} (h : ∀ s, Keeps mild inv (k s)) :
    Keeps mild inv (get >>= k) := fun s hs => h s s hs

theorem keeps_modify {f : σ → σ} (h : ∀ s, inv s → inv (f s)) : Keeps mild inv (modify f) := h

/-- What no change of the part touches is kept. -/
theorem keeps_focus {part : σ → τ} {replace : σ → τ → σ} (c : Command τ β)
    (h : ∀ s t, inv s → inv (replace s t)) : Keeps (fun _ => inv) inv (c.focus part replace) := by
  intro s hs
  unfold Leads focus
  cases c (part s) with
  | ok x t => exact h s t hs
  | error e t => exact .inr (h s t hs)

/-! ### Side by side -/

/-- The state in which a run ends. -/
def final : EStateM.Result Error σ β → σ
  | .ok _ s => s
  | .error _ s => s

theorem after_eq (c : Command σ β) (s : σ) : c.after s = final (c s) := by
  unfold after final
  cases c s <;> rfl

/-- Two runs of a command: both gave the same answer or failure and ended in the `same` state, or
the second was stopped. `stop` may speak of the state in which the first ended. -/
inductive Beside (same : σ → σ → Prop) (stop : Error → σ → σ → Prop) :
    EStateM.Result Error σ β → EStateM.Result Error σ β → Prop
  | ok (x : β) {s₀ s : σ} (h : same s₀ s) : Beside same stop (.ok x s₀) (.ok x s)
  | error (e : Error) {s₀ s : σ} (h : same s₀ s) : Beside same stop (.error e s₀) (.error e s)
  | stopped (r₀ : EStateM.Result Error σ β) (e : Error) {s : σ} (h : stop e (final r₀) s) :
    Beside same stop r₀ (.error e s)

/-- A stop that has happened stays one while the first run goes on with `c`. -/
def Steady (stop : Error → σ → σ → Prop) (c : Command σ β) : Prop :=
  ∀ e s₀ s, stop e s₀ s → stop e (c.after s₀) s

/-- From the `same` state, a second run of `c` does what the first does, until it is stopped. -/
structure Tracks (same : σ → σ → Prop) (stop : Error → σ → σ → Prop) (c : Command σ β) : Prop where
  steady : Steady stop c
  beside : ∀ s₀ s, same s₀ s → Beside same stop (c s₀) (c s)

variable {same : σ → σ → Prop} {stop : Error → σ → σ → Prop} {s₀ : σ}

theorem Steady.bind (hc : Steady stop c) (hk : ∀ x, Steady stop (k x)) :
    Steady stop (c >>= k) := by
  intro e s₀ s h
  have hfirst := hc e s₀ s h
  rw [after_bind]
  unfold after at hfirst
  cases hrun : c s₀ with
  | ok x s₁ =>
    rw [hrun] at hfirst
    exact hk x e s₁ s hfirst
  | error e' s₁ =>
    rw [hrun] at hfirst
    exact hfirst

theorem Beside.bind {d : Command σ β} {l : β → Command σ γ} (hc : Beside same stop (c s₀) (d s))
    (hsteady : ∀ x, Steady stop (k x))
    (hk : ∀ x s₀ s, same s₀ s → Beside same stop (k x s₀) (l x s)) :
    Beside same stop ((c >>= k) s₀) ((d >>= l) s) := by
  rw [run_bind, run_bind]
  generalize c s₀ = r₀ at hc
  generalize d s = r at hc
  cases hc with
  | ok x h => exact hk x _ _ h
  | error e h => exact .error e h
  | stopped _ e h =>
    cases r₀ with
    | ok x s₁ =>
      refine .stopped _ e ?_
      have hthen := hsteady x e s₁ _ h
      rwa [after_eq] at hthen
    | error e' s₁ => exact .stopped _ e h

theorem tracks_pure (x : β) : Tracks same stop (pure x) := ⟨fun _ _ _ h => h, fun _ _ h => .ok x h⟩

theorem tracks_ofExcept (x : Except Error β) : Tracks same stop (ofExcept x) := by
  cases x with
  | ok x => exact ⟨fun _ _ _ h => h, fun _ _ h => .ok x h⟩
  | error e => exact ⟨fun _ _ _ h => h, fun _ _ h => .error e h⟩

theorem Tracks.bind (hc : Tracks same stop c) (hk : ∀ x, Tracks same stop (k x)) :
    Tracks same stop (c >>= k) :=
  ⟨hc.steady.bind fun x => (hk x).steady, fun s₀ s h =>
    (hc.beside s₀ s h).bind (fun x => (hk x).steady) fun x => (hk x).beside⟩

theorem composes_tracks : Composes (Tracks same stop) := ⟨tracks_pure, Tracks.bind⟩

theorem Tracks.same_or_stopped (hc : Tracks same stop c) (h : same s₀ s) :
    c.answer s = c.answer s₀ ∧ same (c.after s₀) (c.after s) ∨
      ∃ e, c.answer s = .error e ∧ stop e (c.after s₀) (c.after s) := by
  have hboth := hc.beside s₀ s h
  rw [after_eq, after_eq]
  unfold answer
  generalize c s₀ = r₀ at hboth
  generalize c s = r at hboth
  cases hboth with
  | ok x h' => exact .inl ⟨rfl, h'⟩
  | error e h' => exact .inl ⟨rfl, h'⟩
  | stopped _ e h' => exact .inr ⟨e, rfl, h'⟩

/-- What the second run answers, the first does too. -/
theorem Tracks.exists_ok (hc : Tracks same stop c) (h : same s₀ s) {x : β} {s' : σ}
    (hrun : c s = .ok x s') : ∃ s₀', c s₀ = .ok x s₀' ∧ same s₀' s' := by
  have hboth := hc.beside s₀ s h
  rw [hrun] at hboth
  generalize c s₀ = r₀ at hboth
  cases hboth with
  | ok x h' => exact ⟨_, rfl, h'⟩

/-- What a command reads of the state is the same on both sides. -/
theorem tracks_get {k : σ → Command σ β} (hk : ∀ s, Tracks same stop (k s))
    (hsame : ∀ s₀ s, same s₀ s → k s = k s₀) : Tracks same stop (get >>= k) := by
  refine ⟨fun e s₀ s => (hk s₀).steady e s₀ s, fun s₀ s h => ?_⟩
  show Beside same stop (k s₀ s₀) (k s s)
  rw [hsame s₀ s h]
  exact (hk s₀).beside s₀ s h

theorem tracks_modify {f : σ → σ} (hsteady : ∀ e s₀ s, stop e s₀ s → stop e (f s₀) s)
    (hsame : ∀ s₀ s, same s₀ s → same (f s₀) (f s)) : Tracks same stop (modify f) :=
  ⟨hsteady, fun s₀ s h => .ok _ (hsame s₀ s h)⟩

/-- A command on a part of the state, whose failures are given another form. -/
theorem Tracks.focus {part : σ → τ} {replace : σ → τ → σ} {f : Error → Error} {c : Command τ β}
    {same' : τ → τ → Prop} {stop' : Error → τ → τ → Prop} (hc : Tracks same' stop' c)
    (hsteady : ∀ e s₀ s, stop e s₀ s → stop e (replace s₀ (c.after (part s₀))) s)
    (hpart : ∀ s₀ s, same s₀ s → same' (part s₀) (part s))
    (hsame : ∀ s₀ s t₀ t, same s₀ s → same' t₀ t → same (replace s₀ t₀) (replace s t))
    (hstop : ∀ e s₀ s t₀ t, same s₀ s → stop' e t₀ t → stop (f e) (replace s₀ t₀) (replace s t)) :
    Tracks same stop ((c.mapError f).focus part replace) := by
  refine ⟨fun e s₀ s h => ?_, fun s₀ s h => ?_⟩
  · rw [after_focus, after_mapError]
    exact hsteady e s₀ s h
  · have hboth := hc.beside _ _ (hpart s₀ s h)
    have hend : final ((c.mapError f).focus part replace s₀) =
        replace s₀ (final (c (part s₀))) := by
      rw [← after_eq, after_focus, after_mapError, after_eq]
    unfold Command.focus mapError at hend ⊢
    generalize c (part s₀) = r₀ at hboth hend
    generalize c (part s) = r at hboth
    cases hboth with
    | ok x h' => exact .ok x (hsame s₀ s _ _ h h')
    | error e h' => exact .error (f e) (hsame s₀ s _ _ h h')
    | stopped _ e h' =>
      refine .stopped _ (f e) ?_
      rw [hend]
      exact hstop e s₀ s _ _ h h'

/-- A command on a part that is the same on both sides. -/
theorem tracks_focus_part {part : σ → τ} {replace : σ → τ → σ} (c : Command τ β)
    (hpart : ∀ s₀ s, same s₀ s → part s₀ = part s)
    (hsame : ∀ s₀ s t, same s₀ s → same (replace s₀ t) (replace s t)) :
    Tracks same (fun _ _ _ => False) (c.focus part replace) := by
  refine ⟨fun _ _ _ h => h, fun s₀ s h => ?_⟩
  unfold Command.focus
  rw [← hpart s₀ s h]
  cases c (part s₀) with
  | ok x t => exact .ok x (hsame s₀ s t h)
  | error e t => exact .error e (hsame s₀ s t h)

/-! ### What is left as it is -/

/-- Whatever `c` answers, it leaves what `view` shows of the state as it is. -/
def Retains (view : σ → τ) (c : Command σ β) : Prop := ∀ s, view (c.after s) = view s

variable {view : σ → τ}

theorem Retains.bind (hc : Retains view c) (hk : ∀ x, Retains view (k x)) :
    Retains view (c >>= k) := by
  intro s
  have hs := hc s
  rw [after_bind]
  unfold after at hs
  cases hrun : c s with
  | ok x s₁ =>
    rw [hrun] at hs
    exact (hk x s₁).trans hs
  | error e s₁ =>
    rw [hrun] at hs
    exact hs

theorem composes_retains : Composes (Retains view) := ⟨fun _ _ => rfl, Retains.bind⟩

theorem retains_get {k : σ → Command σ β} (h : ∀ s, Retains view (k s)) :
    Retains view (get >>= k) := fun s => h s s

theorem retains_ofExcept (x : Except Error β) : Retains view (ofExcept x) := by
  intro s
  cases x <;> rfl

theorem retains_focus {ρ : Type} {part : σ → ρ} {replace : σ → ρ → σ} (c : Command ρ β)
    (h : ∀ s t, view (replace s t) = view s) : Retains view (c.focus part replace) := by
  intro s
  rw [after_focus]
  exact h s _

/-! ### What never fails for good -/

/-- No failure of `c` is fatal. -/
def Mild (c : Command σ β) : Prop := ∀ s e s', c s = .error e s' → ¬ e.isFatal

theorem Mild.bind (hc : Mild c) (hk : ∀ x, Mild (k x)) : Mild (c >>= k) := by
  intro s e s' h
  rw [run_bind] at h
  cases hrun : c s with
  | ok x s₁ =>
    rw [hrun] at h
    exact hk x s₁ e s' h
  | error e₁ s₁ =>
    rw [hrun] at h
    obtain ⟨rfl, rfl⟩ := EStateM.Result.error.inj h
    exact hc s e₁ s₁ hrun

theorem composes_mild : Composes (Mild (σ := σ)) := ⟨fun _ _ _ _ h => (nomatch h), Mild.bind⟩

theorem mild_get {k : σ → Command σ β} (h : ∀ s, Mild (k s)) : Mild (get >>= k) :=
  fun s => h s s

theorem mild_ofExcept {x : Except Error β} (h : ∀ e, x = .error e → ¬ e.isFatal) :
    Mild (ofExcept x : Command σ β) := by
  intro s e s' hrun
  cases x with
  | ok x => cases hrun
  | error e₁ =>
    obtain ⟨rfl, rfl⟩ := EStateM.Result.error.inj hrun
    exact h e₁ rfl

theorem Mild.inContext (hc : Mild c) (context : String) : Mild (c.inContext context) := by
  intro s e s' h
  unfold Command.inContext mapError at h
  cases hrun : c s with
  | ok x s₁ =>
    rw [hrun] at h
    cases h
  | error e₁ s₁ =>
    rw [hrun] at h
    obtain ⟨rfl, rfl⟩ := EStateM.Result.error.inj h
    exact hc s e₁ s₁ hrun

theorem Mild.focus {c : Command τ β} (hc : Mild c) (part : σ → τ) (replace : σ → τ → σ) :
    Mild (c.focus part replace) := by
  intro s e s' h
  unfold Command.focus at h
  cases hrun : c (part s) with
  | ok x t =>
    rw [hrun] at h
    cases h
  | error e₁ t =>
    rw [hrun] at h
    obtain ⟨rfl, rfl⟩ := EStateM.Result.error.inj h
    exact hc _ e₁ t hrun

end Command

end Tidemark
