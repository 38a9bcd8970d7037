import RustyLibc.Outcome

/-!
# Computations that call a host

A program talks to its host by requests; the type of a reply depends on the
request. The host answers from a state of its own, of any type, so a statement
about every host covers every sequence of replies a run may see. Each request
is kept in a trace with its reply. `attempt` hands over the reply or the error
that stands for it, and `call` is a request followed by `?`.
-/

namespace RustyLibc.HostCalls

variable {ρ : Type} {Rep : ρ → Type} {ε σ α β ι τ : Type}

abbrev Host (Rep : ρ → Type) (ε σ : Type) := (r : ρ) → σ → Except ε (Rep r) × σ

structure Event (Rep : ρ → Type) (ε : Type) where
  request : ρ
  reply : Except ε (Rep request)

structure World (Rep : ρ → Type) (ε σ : Type) where
  state : σ
  trace : List (Event Rep ε)

def Sys (Rep : ρ → Type) (ε σ α : Type) := World Rep ε σ → Outcome ε α × World Rep ε σ

namespace Sys

def bind (x : Sys Rep ε σ α) (f : α → Sys Rep ε σ β) : Sys Rep ε σ β := fun w =>
  match x w with
  | (.ok a, w) => f a w
  | (.err e, w) => (.err e, w)
  | (.panic, w) => (.panic, w)
  | (.diverge, w) => (.diverge, w)

instance : Monad (Sys Rep ε σ) where
  pure a := fun w => (.ok a, w)
  bind := bind

def lift (x : Outcome ε α) : Sys Rep ε σ α := fun w => (x, w)

def attempt (host : Host Rep ε σ) (r : ρ) : Sys Rep ε σ (Except ε (Rep r)) := fun w =>
  let answer := host r w.state
  (.ok answer.1, ⟨answer.2, w.trace ++ [⟨r, answer.1⟩]⟩)

def ofExcept : Except ε α → Sys Rep ε σ α
  | .ok a => lift (.ok a)
  | .error e => lift (.err e)

def call (host : Host Rep ε σ) (r : ρ) : Sys Rep ε σ (Rep r) := attempt host r >>= ofExcept

/-- Hold an error back as a value; a panic is not held back. -/
def capture (x : Sys Rep ε σ α) : Sys Rep ε σ (Except ε α) := fun w =>
  match x w with
  | (.ok a, w) => (.ok (.ok a), w)
  | (.err e, w) => (.ok (.error e), w)
  | (.panic, w) => (.panic, w)
  | (.diverge, w) => (.diverge, w)

@[simp] theorem pure_apply (a : α) (w : World Rep ε σ) :
    (pure a : Sys Rep ε σ α) w = (.ok a, w) := rfl

@[simp] theorem lift_apply (x : Outcome ε α) (w : World Rep ε σ) :
    (lift x : Sys Rep ε σ α) w = (x, w) := rfl

theorem bind_of_ok {x : Sys Rep ε σ α} {f : α → Sys Rep ε σ β} {w w' : World Rep ε σ} {a : α}
    (h : x w = (.ok a, w')) : (x >>= f) w = f a w' := by
  change bind x f w = _
  rw [bind, h]

theorem bind_of_err {x : Sys Rep ε σ α} {f : α → Sys Rep ε σ β} {w w' : World Rep ε σ} {e : ε}
    (h : x w = (.err e, w')) : (x >>= f) w = (.err e, w') := by
  change bind x f w = _
  rw [bind, h]

theorem bind_eq_ok {x : Sys Rep ε σ α} {f : α → Sys Rep ε σ β} {w w' : World Rep ε σ} {b : β} :
    (x >>= f) w = (.ok b, w') ↔ ∃ a v, x w = (.ok a, v) ∧ f a v = (.ok b, w') := by
  change bind x f w = _ ↔ _
  rw [bind]
  rcases hx : x w with ⟨r, v⟩
  cases r with
  | ok a =>
    constructor
    · exact fun h => ⟨a, v, rfl, h⟩
    · intro h
      obtain ⟨a', v', hav, h⟩ := h
      obtain ⟨rfl, rfl⟩ : a = a' ∧ v = v' := by simpa using hav
      exact h
  | err e => simp
  | panic => simp
  | diverge => simp

theorem bind_lift (x : Sys Rep ε σ α) (f : α → Outcome ε β) (w : World Rep ε σ) :
    (x >>= fun a => lift (f a)) w = ((x w).1 >>= f, (x w).2) := by
  change bind x _ w = _
  rw [bind]
  rcases x w with ⟨r, v⟩
  cases r <;> rfl

theorem attempt_apply (host : Host Rep ε σ) (r : ρ) (w : World Rep ε σ) :
    attempt host r w =
      (.ok (host r w.state).1, ⟨(host r w.state).2, w.trace ++ [⟨r, (host r w.state).1⟩]⟩) := rfl

theorem attempt_eq_ok {host : Host Rep ε σ} {r : ρ} {w w' : World Rep ε σ}
    {reply : Except ε (Rep r)} :
    attempt host r w = (.ok reply, w') ↔
      host r w.state = (reply, w'.state) ∧ w'.trace = w.trace ++ [⟨r, reply⟩] := by
  obtain ⟨s, t⟩ := w'
  rw [attempt_apply]
  rcases hans : host r w.state with ⟨a, b⟩
  simp only [Prod.mk.injEq, Outcome.ok.injEq, World.mk.injEq]
  constructor
  · intro h
    obtain ⟨rfl, rfl, rfl⟩ := h
    exact ⟨⟨rfl, rfl⟩, rfl⟩
  · intro h
    obtain ⟨⟨rfl, rfl⟩, rfl⟩ := h
    exact ⟨rfl, rfl, rfl⟩

theorem call_eq_ok {host : Host Rep ε σ} {r : ρ} {w w' : World Rep ε σ} {a : Rep r} :
    call host r w = (.ok a, w') ↔
      host r w.state = (.ok a, w'.state) ∧ w'.trace = w.trace ++ [⟨r, .ok a⟩] := by
  rw [call, bind_eq_ok, ← attempt_eq_ok]
  constructor
  · intro h
    obtain ⟨reply, v, hat, hof⟩ := h
    cases reply with
    | ok b =>
      obtain ⟨rfl, rfl⟩ : b = a ∧ v = w' := by simpa [ofExcept] using hof
      exact hat
    | error e => simp [ofExcept] at hof
  · intro h
    exact ⟨.ok a, w', h, rfl⟩

theorem attempt_of_reply {host : Host Rep ε σ} {r : ρ} {w : World Rep ε σ}
    {reply : Except ε (Rep r)} {s : σ} (h : host r w.state = (reply, s)) :
    attempt host r w = (.ok reply, ⟨s, w.trace ++ [⟨r, reply⟩]⟩) :=
  attempt_eq_ok.mpr ⟨h, rfl⟩

theorem call_of_reply {host : Host Rep ε σ} {r : ρ} {w : World Rep ε σ} {a : Rep r} {s : σ}
    (h : host r w.state = (.ok a, s)) :
    call host r w = (.ok a, ⟨s, w.trace ++ [⟨r, .ok a⟩]⟩) :=
  call_eq_ok.mpr ⟨h, rfl⟩

theorem call_of_error {host : Host Rep ε σ} {r : ρ} {w : World Rep ε σ} {e : ε} {s : σ}
    (h : host r w.state = (.error e, s)) :
    call host r w = (.err e, ⟨s, w.trace ++ [⟨r, .error e⟩]⟩) := by
  rw [call, bind_of_ok (attempt_of_reply h)]
  rfl

theorem capture_eq_ok {x : Sys Rep ε σ α} {w w' : World Rep ε σ} {a : α} :
    capture x w = (.ok (.ok a), w') ↔ x w = (.ok a, w') := by
  rw [capture]
  rcases hx : x w with ⟨_ | _ | _ | _, v⟩ <;> simp

theorem capture_of_ok {x : Sys Rep ε σ α} {w w' : World Rep ε σ} {a : α} (h : x w = (.ok a, w')) :
    capture x w = (.ok (.ok a), w') :=
  capture_eq_ok.mpr h

theorem capture_of_err {x : Sys Rep ε σ α} {w w' : World Rep ε σ} {e : ε}
    (h : x w = (.err e, w')) : capture x w = (.ok (.error e), w') := by
  rw [capture, h]

theorem fst_capture_attempt (x : Sys Rep ε σ α) (host : Host Rep ε σ) (r : ρ)
    (w : World Rep ε σ) :
    ((capture x >>= fun result => attempt host r >>= fun _ => ofExcept result) w).1 = (x w).1 := by
  change (Sys.bind (capture x) _ w).1 = _
  rcases hx : x w with ⟨out, v⟩
  cases out with
  | ok a =>
    simp only [Sys.bind, capture, hx]
    rfl
  | err e =>
    simp only [Sys.bind, capture, hx]
    rfl
  | panic => simp only [Sys.bind, capture, hx]
  | diverge => simp only [Sys.bind, capture, hx]

/-- `for i in is { .. }` whose body goes on with `none` and returns with
`some`. -/
def firstSome (f : ι → Sys Rep ε σ (Option β)) : List ι → Sys Rep ε σ (Option β)
  | [] => pure none
  | i :: is => do
    match ← f i with
    | some b => pure (some b)
    | none => firstSome f is

theorem firstSome_cons_some {f : ι → Sys Rep ε σ (Option β)} {i : ι} {is : List ι}
    {w w' : World Rep ε σ} {b : β} (h : f i w = (.ok (some b), w')) :
    firstSome f (i :: is) w = (.ok (some b), w') := by
  rw [firstSome, bind_of_ok h]
  rfl

theorem firstSome_cons_none {f : ι → Sys Rep ε σ (Option β)} {i : ι} {is : List ι}
    {w w' : World Rep ε σ} (h : f i w = (.ok none, w')) :
    firstSome f (i :: is) w = firstSome f is w' := by
  rw [firstSome, bind_of_ok h]

theorem firstSome_append (f : ι → Sys Rep ε σ (Option β)) (is js : List ι) :
    firstSome f (is ++ js) = firstSome f is >>= fun
      | some b => pure (some b)
      | none => firstSome f js := by
  induction is with
  | nil => rfl
  | cons i is ih =>
    funext w
    change Sys.bind _ _ w = Sys.bind (Sys.bind _ _) _ w
    rcases hf : f i w with ⟨r, v⟩
    cases r with
    | ok r =>
      cases r with
      | some b => simp only [Sys.bind, hf, pure_apply]
      | none =>
        simp only [Sys.bind, hf]
        exact congrFun ih v
    | err e => simp only [Sys.bind, hf]
    | panic => simp only [Sys.bind, hf]
    | diverge => simp only [Sys.bind, hf]

theorem firstSome_flatMap {κ : Type} (f : ι → Sys Rep ε σ (Option β)) (g : κ → List ι)
    (js : List κ) :
    firstSome (fun j => firstSome f (g j)) js = firstSome f (js.flatMap g) := by
  induction js with
  | nil => rfl
  | cons j js ih =>
    rw [List.flatMap_cons, firstSome_append, ← ih]
    rfl

/-- With a host of any behaviour a loop need not end, so the number of passes that
are watched is a parameter. -/
def loop (body : τ → Sys Rep ε σ (Outcome.Pass τ α)) : ℕ → τ → Sys Rep ε σ α
  | 0, _ => lift .diverge
  | fuel + 1, s => do
    match ← body s with
    | .next t => loop body fuel t
    | .done a => pure a

end Sys

/-- A run ended in a value, in an error or for want of passes, and did not
panic. -/
def Ends (x : Outcome ε α × World Rep ε σ) (P : α → World Rep ε σ → Prop)
    (Q : ε → World Rep ε σ → Prop) (R : World Rep ε σ → Prop) : Prop :=
  match x with
  | (.ok a, w) => P a w
  | (.err e, w) => Q e w
  | (.panic, _) => False
  | (.diverge, w) => R w

section Ends

variable {Q : ε → World Rep ε σ → Prop} {R : World Rep ε σ → Prop}

theorem Ends.bind {x : Sys Rep ε σ α} {f : α → Sys Rep ε σ β} {w : World Rep ε σ}
    {P : α → World Rep ε σ → Prop} {P' : β → World Rep ε σ → Prop} (hx : Ends (x w) P Q R)
    (hf : ∀ a v, P a v → Ends (f a v) P' Q R) : Ends ((x >>= f) w) P' Q R := by
  change Ends (Sys.bind x f w) P' Q R
  rw [Sys.bind]
  rcases h : x w with ⟨r, v⟩
  rw [h] at hx
  cases r with
  | ok a => exact hf a v hx
  | err e => exact hx
  | panic => exact hx
  | diverge => exact hx

theorem Ends.imp {x : Outcome ε α × World Rep ε σ} {P P' : α → World Rep ε σ → Prop}
    {Q' : ε → World Rep ε σ → Prop} {R' : World Rep ε σ → Prop} (hx : Ends x P Q R)
    (hP : ∀ a w, P a w → P' a w) (hQ : ∀ e w, Q e w → Q' e w) (hR : ∀ w, R w → R' w) :
    Ends x P' Q' R' := by
  obtain ⟨r, w⟩ := x
  cases r with
  | ok a => exact hP a w hx
  | err e => exact hQ e w hx
  | panic => exact hx
  | diverge => exact hR w hx

theorem Ends.outcome {x : Outcome ε α × World Rep ε σ}
    {P : Outcome ε α → World Rep ε σ → Prop}
    (h : Ends x (fun a v => P (.ok a) v) (fun e v => P (.err e) v) (fun _ => False)) :
    P x.1 x.2 := by
  obtain ⟨r, v⟩ := x
  cases r with
  | ok a => exact h
  | err e => exact h
  | panic => exact h.elim
  | diverge => exact h.elim

theorem Ends.lift {x : Outcome ε α} {w : World Rep ε σ} {P : α → World Rep ε σ → Prop}
    (h : Outcome.Sat x (fun a => P a w) (fun e => Q e w)) : Ends (Sys.lift x w) P Q R := by
  cases x with
  | ok a => exact h
  | err e => exact h
  | panic => exact h.elim
  | diverge => exact h.elim

theorem Ends.call {host : Host Rep ε σ} {r : ρ} {w : World Rep ε σ}
    {P : Rep r → World Rep ε σ → Prop}
    (hok : ∀ a v, v.trace = w.trace ++ [⟨r, .ok a⟩] → P a v)
    (herr : ∀ e v, v.trace = w.trace ++ [⟨r, .error e⟩] → Q e v) :
    Ends (Sys.call host r w) P Q R := by
  rcases hreply : host r w.state with ⟨reply, s⟩
  cases reply with
  | ok a =>
    rw [Sys.call_of_reply hreply]
    exact hok a _ rfl
  | error e =>
    rw [Sys.call_of_error hreply]
    exact herr e _ rfl

/-- A result held back until a last call has been made, whatever it answers. -/
theorem Ends.behind_attempt {x : Sys Rep ε σ α} {host : Host Rep ε σ} {r : ρ} {w : World Rep ε σ}
    {P P' : α → World Rep ε σ → Prop} {Q' : ε → World Rep ε σ → Prop}
    (hx : Ends (x w) P' Q' R)
    (hok : ∀ a u v reply, P' a u → v.trace = u.trace ++ [⟨r, reply⟩] → P a v)
    (herr : ∀ e u v reply, Q' e u → v.trace = u.trace ++ [⟨r, reply⟩] → Q e v) :
    Ends ((Sys.capture x >>= fun result => Sys.attempt host r >>= fun _ => Sys.ofExcept result) w)
      P Q R := by
  rcases hrun : x w with ⟨out, u⟩
  rw [hrun] at hx
  cases out with
  | ok a =>
    rw [Sys.bind_of_ok (Sys.capture_of_ok hrun), Sys.bind_of_ok (Sys.attempt_apply _ _ _)]
    exact hok a u _ _ hx rfl
  | err e =>
    rw [Sys.bind_of_ok (Sys.capture_of_err hrun), Sys.bind_of_ok (Sys.attempt_apply _ _ _)]
    exact herr e u _ _ hx rfl
  | panic => exact hx.elim
  | diverge =>
    change Ends (Sys.bind _ _ w) P Q R
    rw [Sys.bind, Sys.capture, hrun]
    exact hx

/-- `P` behind an early return, `I` behind a pass that goes on. -/
def Early (P : β → World Rep ε σ → Prop) (I : World Rep ε σ → Prop) :
    Option β → World Rep ε σ → Prop
  | some b, w => P b w
  | none, w => I w

theorem Ends.firstSome {f : ι → Sys Rep ε σ (Option β)} {I : World Rep ε σ → Prop}
    {P : β → World Rep ε σ → Prop} {is : List ι}
    (hf : ∀ i ∈ is, ∀ w, I w → Ends (f i w) (Early P I) Q R) {w : World Rep ε σ} (hw : I w) :
    Ends (Sys.firstSome f is w) (Early P I) Q R := by
  induction is generalizing w with
  | nil => exact hw
  | cons i is ih =>
    refine (hf i List.mem_cons_self w hw).bind fun r v hr => ?_
    cases r with
    | some b => exact hr
    | none => exact ih (fun j hj => hf j (List.mem_cons_of_mem i hj)) hr

/-- The loop rule: `I n` holds after `n` passes. A loop that is cut short has
spent its budget and still satisfies the invariant. -/
theorem Ends.loop (body : τ → Sys Rep ε σ (Outcome.Pass τ α)) {I : ℕ → τ → World Rep ε σ → Prop}
    {P : α → World Rep ε σ → Prop}
    (hbody : ∀ n s w, I n s w → Ends (body s w)
      (fun | .next t, v => I (n + 1) t v | .done a, v => P a v) Q (fun _ => False))
    (fuel : ℕ) {n : ℕ} {s : τ} {w : World Rep ε σ} (h : I n s w) :
    Ends (Sys.loop body fuel s w) P Q (fun v => ∃ t, I (n + fuel) t v) := by
  induction fuel generalizing n s w with
  | zero => exact ⟨s, h⟩
  | succ fuel ih =>
    refine Ends.bind ((hbody n s w h).imp (fun _ _ hr => hr) (fun _ _ he => he)
      (fun _ hf => hf.elim)) fun r v hr => ?_
    cases r with
    | next t =>
      have hrest := ih (n := n + 1) hr
      rw [Nat.add_right_comm] at hrest
      exact hrest
    | done a => exact hr

end Ends

def World.behind (pre : List (Event Rep ε)) (w : World Rep ε σ) : World Rep ε σ :=
  ⟨w.state, pre ++ w.trace⟩

/-- `x` asks only for requests in `S`, and does so behind any trace. -/
def Asks (S : ρ → Prop) (x : Sys Rep ε σ α) : Prop :=
  ∀ s pre, x ⟨s, pre⟩ = ((x ⟨s, []⟩).1, (x ⟨s, []⟩).2.behind pre) ∧
    ∀ e ∈ (x ⟨s, []⟩).2.trace, S e.request

section Asks

variable {S : ρ → Prop}

theorem Asks.lift (x : Outcome ε α) : Asks S (Sys.lift x : Sys Rep ε σ α) := by
  intro s pre
  refine ⟨?_, fun e he => absurd he List.not_mem_nil⟩
  simp only [Sys.lift, World.behind, List.append_nil]

theorem Asks.pure (a : α) : Asks S (Pure.pure a : Sys Rep ε σ α) := Asks.lift (.ok a)

theorem Asks.attempt (host : Host Rep ε σ) {r : ρ} (h : S r) : Asks S (Sys.attempt host r) := by
  intro s pre
  refine ⟨rfl, fun e he => ?_⟩
  have heq : e = ⟨r, (host r s).1⟩ := List.mem_singleton.mp he
  rw [heq]
  exact h

theorem Asks.bind {x : Sys Rep ε σ α} {f : α → Sys Rep ε σ β} (hx : Asks S x)
    (hf : ∀ a, Asks S (f a)) : Asks S (x >>= f) := by
  intro s pre
  change Sys.bind x f _ = ((Sys.bind x f _).1, (Sys.bind x f _).2.behind pre) ∧
    ∀ e ∈ (Sys.bind x f _).2.trace, S e.request
  have hframe := (hx s pre).1
  have hasked := (hx s pre).2
  rcases hrun : x ⟨s, []⟩ with ⟨r, v⟩
  rw [hrun] at hframe hasked
  simp only [Sys.bind, hframe, hrun]
  cases r with
  | ok a =>
    have hrest := (hf a v.state v.trace).1
    have hrest' := (hf a v.state (pre ++ v.trace)).1
    dsimp only
    rw [show f a v = f a ⟨v.state, v.trace⟩ from rfl, hrest,
      show f a (v.behind pre) = f a ⟨v.state, pre ++ v.trace⟩ from rfl, hrest']
    refine ⟨?_, fun e he => ?_⟩
    · simp only [World.behind, List.append_assoc]
    · rcases List.mem_append.mp he with hleft | hright
      · exact hasked e hleft
      · exact (hf a v.state v.trace).2 e hright
  | err e => exact ⟨rfl, hasked⟩
  | panic => exact ⟨rfl, hasked⟩
  | diverge => exact ⟨rfl, hasked⟩

theorem Asks.ofExcept (x : Except ε α) : Asks S (Sys.ofExcept x : Sys Rep ε σ α) := by
  cases x with
  | ok a => exact Asks.lift (.ok a)
  | error e => exact Asks.lift (.err e)

theorem Asks.call (host : Host Rep ε σ) {r : ρ} (h : S r) : Asks S (Sys.call host r) :=
  (Asks.attempt host h).bind Asks.ofExcept

theorem Asks.firstSome {f : ι → Sys Rep ε σ (Option β)} (hf : ∀ i, Asks S (f i)) (is : List ι) :
    Asks S (Sys.firstSome f is) := by
  induction is with
  | nil => exact Asks.pure none
  | cons i is ih =>
    refine (hf i).bind fun r => ?_
    cases r with
    | some b => exact Asks.pure (some b)
    | none => exact ih

theorem Asks.loop {body : τ → Sys Rep ε σ (Outcome.Pass τ α)} (hbody : ∀ t, Asks S (body t))
    (fuel : ℕ) (t : τ) : Asks S (Sys.loop body fuel t) := by
  induction fuel generalizing t with
  | zero => exact Asks.lift .diverge
  | succ fuel ih =>
    refine (hbody t).bind fun r => ?_
    cases r with
    | next t' => exact ih t'
    | done a => exact Asks.pure a

end Asks

section Sum

variable {ρ' : Type} {Rep' : ρ' → Type}

/-- The replies to requests of two kinds. -/
abbrev Both (Rep : ρ → Type) (Rep' : ρ' → Type) : ρ ⊕ ρ' → Type
  | .inl r => Rep r
  | .inr r => Rep' r

def Host.left (host : Host (Both Rep Rep') ε σ) : Host Rep ε σ := fun r s => host (.inl r) s
def Host.right (host : Host (Both Rep Rep') ε σ) : Host Rep' ε σ := fun r s => host (.inr r) s

def Event.inl (e : Event Rep ε) : Event (Both Rep Rep') ε := ⟨.inl e.request, e.reply⟩
def Event.inr (e : Event Rep' ε) : Event (Both Rep Rep') ε := ⟨.inr e.request, e.reply⟩

def Event.elim (f : Event Rep ε → β) (g : Event Rep' ε → β) : Event (Both Rep Rep') ε → β
  | ⟨.inl r, reply⟩ => f ⟨r, reply⟩
  | ⟨.inr r, reply⟩ => g ⟨r, reply⟩

def Sys.onLeft (x : Sys Rep ε σ α) : Sys (Both Rep Rep') ε σ α := fun w =>
  ((x ⟨w.state, []⟩).1,
    ⟨(x ⟨w.state, []⟩).2.state, w.trace ++ (x ⟨w.state, []⟩).2.trace.map Event.inl⟩)

def Sys.onRight (x : Sys Rep' ε σ α) : Sys (Both Rep Rep') ε σ α := fun w =>
  ((x ⟨w.state, []⟩).1,
    ⟨(x ⟨w.state, []⟩).2.state, w.trace ++ (x ⟨w.state, []⟩).2.trace.map Event.inr⟩)

variable {P : α → World (Both Rep Rep') ε σ → Prop} {Q : ε → World (Both Rep Rep') ε σ → Prop}
  {R : World (Both Rep Rep') ε σ → Prop} {w : World (Both Rep Rep') ε σ}

theorem Ends.onLeft {x : Sys Rep ε σ α}
    (h : Ends (x ⟨w.state, []⟩) (fun a v => P a ⟨v.state, w.trace ++ v.trace.map Event.inl⟩)
      (fun e v => Q e ⟨v.state, w.trace ++ v.trace.map Event.inl⟩)
      (fun v => R ⟨v.state, w.trace ++ v.trace.map Event.inl⟩)) : Ends (Sys.onLeft x w) P Q R := by
  rw [Sys.onLeft]
  rcases hrun : x ⟨w.state, []⟩ with ⟨r, v⟩
  rw [hrun] at h
  cases r with
  | ok a => exact h
  | err e => exact h
  | panic => exact h
  | diverge => exact h

theorem Ends.onRight {x : Sys Rep' ε σ α}
    (h : Ends (x ⟨w.state, []⟩) (fun a v => P a ⟨v.state, w.trace ++ v.trace.map Event.inr⟩)
      (fun e v => Q e ⟨v.state, w.trace ++ v.trace.map Event.inr⟩)
      (fun v => R ⟨v.state, w.trace ++ v.trace.map Event.inr⟩)) : Ends (Sys.onRight x w) P Q R := by
  rw [Sys.onRight]
  rcases hrun : x ⟨w.state, []⟩ with ⟨r, v⟩
  rw [hrun] at h
  cases r with
  | ok a => exact h
  | err e => exact h
  | panic => exact h
  | diverge => exact h

end Sum

end RustyLibc.HostCalls
