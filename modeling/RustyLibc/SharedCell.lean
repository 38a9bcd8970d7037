import Mathlib.Data.Rat.Defs
import Mathlib.Algebra.Order.Ring.Rat
import Mathlib.Logic.Relation
import Mathlib.Data.List.Induction
import Mathlib.Algebra.Order.Field.Basic

/-!
# Threads that share one relaxed cell

Any number of threads call a procedure again and again. All they share is one
atomic cell with relaxed loads and stores. What was stored is kept as messages
with a stamp, the place of the store in the modification order of the cell; a
thread has a view, the least stamp it may still read. A load takes any message
at or above the view and raises the view to it; a store takes an unused stamp
above the view, which need not be the largest. Nothing else orders the threads,
so a load may return a value that other threads have long overwritten.

A thread also asks its environment; `allowed` says which answers it may get after
the questions of all threads so far. On the way to the answer of a `slow` question
it may work for any number of steps of its own, which are told apart from the
others. `Safe` is a contract over the code of one
thread, closed under what other threads may do between any two of its steps, and
`Contract.holds` turns it into an invariant of every interleaving.
-/

namespace RustyLibc.SharedCell

variable {Θ ν ρ A α β : Type} {Rep : ρ → Type}

inductive Prog (ν : Type) {ρ : Type} (Rep : ρ → Type) (α : Type) where
  | ret (a : α)
  | load (k : ν → Prog ν Rep α)
  | store (v : ν) (k : Prog ν Rep α)
  | ask (r : ρ) (k : Rep r → Prog ν Rep α)

namespace Prog

def bind : Prog ν Rep α → (α → Prog ν Rep β) → Prog ν Rep β
  | ret a, f => f a
  | load k, f => load fun v => (k v).bind f
  | store v k, f => store v (k.bind f)
  | ask r k, f => ask r fun reply => (k reply).bind f

instance : Monad (Prog ν Rep) where
  pure := ret
  bind := bind

/-- At most `n` steps are left, the return included. -/
def Within : ℕ → Prog ν Rep α → Prop
  | 0, _ => False
  | _ + 1, ret _ => True
  | n + 1, load k => ∀ v, Within n (k v)
  | n + 1, store _ k => Within n k
  | n + 1, ask _ k => ∀ reply, Within n (k reply)

end Prog

structure Message (ν : Type) where
  stamp : ℚ
  value : ν

structure Asked (Θ : Type) {ρ : Type} (Rep : ρ → Type) where
  thread : Θ
  request : ρ
  reply : Rep request
  time : ℕ

structure Call (Θ A α : Type) where
  thread : Θ
  arg : A
  started : ℕ
  ended : ℕ
  result : α

inductive Phase (ν : Type) {ρ : Type} (Rep : ρ → Type) (A α : Type) where
  | idle
  | busy (arg : A) (started : ℕ) (rest : Prog ν Rep α)

structure State (Θ ν : Type) {ρ : Type} (Rep : ρ → Type) (A α : Type) where
  now : ℕ
  messages : List (Message ν)
  view : Θ → ℚ
  phase : Θ → Phase ν Rep A α
  asked : List (Asked Θ Rep)
  calls : List (Call Θ A α)

def start (init : ν) : State Θ ν Rep A α where
  now := 0
  messages := [⟨0, init⟩]
  view _ := 0
  phase _ := .idle
  asked := []
  calls := []

inductive Effort where
  | step
  | work
  deriving DecidableEq

section Steps

variable [DecidableEq Θ] (code : A → Prog ν Rep α)
  (allowed : List (Asked Θ Rep) → Asked Θ Rep → Prop) (slow : ρ → Prop)

inductive Step (t : Θ) : Effort → State Θ ν Rep A α → State Θ ν Rep A α → Prop
  | start {s : State Θ ν Rep A α} (a : A) (hphase : s.phase t = .idle) :
      Step t .step s { s with
        now := s.now + 1
        phase := Function.update s.phase t (.busy a s.now (code a)) }
  | load {s : State Θ ν Rep A α} {a : A} {since : ℕ} {k : ν → Prog ν Rep α} (m : Message ν)
      (hphase : s.phase t = .busy a since (.load k)) (hm : m ∈ s.messages)
      (hview : s.view t ≤ m.stamp) :
      Step t .step s { s with
        now := s.now + 1
        view := Function.update s.view t m.stamp
        phase := Function.update s.phase t (.busy a since (k m.value)) }
  | store {s : State Θ ν Rep A α} {a : A} {since : ℕ} {v : ν} {k : Prog ν Rep α} (stamp : ℚ)
      (hphase : s.phase t = .busy a since (.store v k)) (hview : s.view t < stamp)
      (hfresh : ∀ m ∈ s.messages, m.stamp ≠ stamp) :
      Step t .step s { s with
        now := s.now + 1
        messages := ⟨stamp, v⟩ :: s.messages
        view := Function.update s.view t stamp
        phase := Function.update s.phase t (.busy a since k) }
  | ask {s : State Θ ν Rep A α} {a : A} {since : ℕ} {r : ρ} {k : Rep r → Prog ν Rep α}
      (reply : Rep r) (hphase : s.phase t = .busy a since (.ask r k))
      (hallowed : allowed s.asked ⟨t, r, reply, s.now⟩) :
      Step t .step s { s with
        now := s.now + 1
        phase := Function.update s.phase t (.busy a since (k reply))
        asked := s.asked ++ [⟨t, r, reply, s.now⟩] }
  | work {s : State Θ ν Rep A α} {a : A} {since : ℕ} {r : ρ} {k : Rep r → Prog ν Rep α}
      (hphase : s.phase t = .busy a since (.ask r k)) (hslow : slow r) :
      Step t .work s { s with now := s.now + 1 }
  | ret {s : State Θ ν Rep A α} {a : A} {since : ℕ} {result : α}
      (hphase : s.phase t = .busy a since (.ret result)) :
      Step t .step s { s with
        now := s.now + 1
        phase := Function.update s.phase t .idle
        calls := s.calls ++ [⟨t, a, since, s.now, result⟩] }

inductive Path : List (Θ × Effort) → State Θ ν Rep A α → State Θ ν Rep A α → Prop
  | nil (s : State Θ ν Rep A α) : Path [] s s
  | cons {t : Θ} {f : Effort} {ts : List (Θ × Effort)} {s u v : State Θ ν Rep A α}
      (h : Step code allowed slow t f s u) (rest : Path ts u v) : Path ((t, f) :: ts) s v

end Steps

def Grows (t : Θ) (h h' : List (Asked Θ Rep)) : Prop :=
  ∃ es, h' = h ++ es ∧ ∀ e ∈ es, e.thread ≠ t

theorem Grows.refl (t : Θ) (h : List (Asked Θ Rep)) : Grows t h h :=
  ⟨[], (List.append_nil h).symm, by simp⟩

theorem Grows.trans {t : Θ} {h h' h'' : List (Asked Θ Rep)} (h₁ : Grows t h h')
    (h₂ : Grows t h' h'') : Grows t h h'' := by
  obtain ⟨es, rfl, hes⟩ := h₁
  obtain ⟨es', rfl, hes'⟩ := h₂
  refine ⟨es ++ es', List.append_assoc .., ?_⟩
  intro e he
  rcases List.mem_append.mp he with he | he
  · exact hes e he
  · exact hes' e he

theorem Grows.mem {t : Θ} {h h' : List (Asked Θ Rep)} (hg : Grows t h h') {e : Asked Θ Rep}
    (he : e ∈ h) : e ∈ h' := by
  obtain ⟨es, rfl, -⟩ := hg
  exact List.mem_append_left es he

theorem Grows.mem_own {t : Θ} {h h' : List (Asked Θ Rep)} (hg : Grows t h h')
    {e : Asked Θ Rep} (he : e ∈ h') (hown : e.thread = t) : e ∈ h := by
  obtain ⟨es, rfl, hes⟩ := hg
  rcases List.mem_append.mp he with he | he
  · exact he
  · exact absurd hown (hes e he)

theorem snoc_eq_append_cons {γ : Type} {xs ys zs : List γ} {x y : γ}
    (h : xs ++ [x] = ys ++ y :: zs) : y = x ∧ xs = ys ∨ ∃ zs', xs = ys ++ y :: zs' := by
  rcases List.eq_nil_or_concat zs with rfl | ⟨zs', z, rfl⟩
  · obtain ⟨hxs, hx⟩ := List.append_inj' h rfl
    exact .inl ⟨(List.singleton_inj.mp hx).symm, hxs⟩
  · rw [List.concat_eq_append, ← List.cons_append, ← List.append_assoc] at h
    exact .inr ⟨zs', (List.append_inj' h rfl).1⟩

theorem countP_le_one {γ : Type} {p : γ → Bool} {xs : List γ}
    (h : ∀ ys y zs, xs = ys ++ y :: zs → p y = true → ∀ x ∈ ys, ¬ p x = true) :
    xs.countP p ≤ 1 := by
  induction xs using List.reverseRecOn with
  | nil => simp
  | append_singleton xs x ih =>
    have hxs := ih fun ys y zs heq => h ys y (zs ++ [x]) (by simp [heq])
    rw [List.countP_append, List.countP_singleton]
    split
    · have hnone := List.countP_eq_zero.mpr (h xs x [] rfl ‹_›)
      omega
    · omega

/-- What is known of the cell and of the environment: the value it starts with,
the values that are stored into it, and what must hold when a question is asked. -/
structure Terms (Θ ν : Type) {ρ : Type} (Rep : ρ → Type) where
  init : ν
  stored : List (Asked Θ Rep) → ν → Prop
  stored_mono : ∀ h es v, stored h v → stored (h ++ es) v
  allowed : List (Asked Θ Rep) → Asked Θ Rep → Prop
  pre : Θ → List (Asked Θ Rep) → ρ → Prop

variable (T : Terms Θ ν Rep)

/-- The rest of a call of thread `t` that began at `since` keeps to the terms and
ends in a result for which `K` holds. The flag says that the thread has seen past
the initial value of the cell; from then on no load can return it. -/
def Safe (t : Θ) (since : ℕ) (K : Bool → List (Asked Θ Rep) → α → Prop) :
    Prog ν Rep α → Bool → List (Asked Θ Rep) → Prop
  | .ret a, past, h => ∀ h', Grows t h h' → K past h' a
  | .load k, past, h => ∀ h', Grows t h h' →
      (past = false → Safe t since K (k T.init) false h') ∧
      ∀ v, T.stored h' v → Safe t since K (k v) true h'
  | .store v k, _, h => ∀ h', Grows t h h' → T.stored h' v ∧ Safe t since K k true h'
  | .ask r k, past, h => ∀ h', Grows t h h' → T.pre t h' r ∧
      ∀ reply time, since ≤ time → T.allowed h' ⟨t, r, reply, time⟩ →
        Safe t since K (k reply) past (h' ++ [⟨t, r, reply, time⟩])

variable {T}

theorem Safe.grows {t : Θ} {since : ℕ} {K : Bool → List (Asked Θ Rep) → α → Prop}
    {p : Prog ν Rep α} {past : Bool} {h h' : List (Asked Θ Rep)} (hp : Safe T t since K p past h)
    (hg : Grows t h h') : Safe T t since K p past h' := by
  cases p with
  | ret a => exact fun h'' hg' => hp h'' (hg.trans hg')
  | load k => exact fun h'' hg' => hp h'' (hg.trans hg')
  | store v k => exact fun h'' hg' => hp h'' (hg.trans hg')
  | ask r k => exact fun h'' hg' => hp h'' (hg.trans hg')

theorem Safe.bind {t : Θ} {since : ℕ} {K : Bool → List (Asked Θ Rep) → α → Prop}
    {K' : Bool → List (Asked Θ Rep) → β → Prop} {p : Prog ν Rep α} {f : α → Prog ν Rep β}
    {past : Bool} {h : List (Asked Θ Rep)} (hp : Safe T t since K p past h)
    (hf : ∀ a past h, K past h a → Safe T t since K' (f a) past h) :
    Safe T t since K' (p >>= f) past h := by
  change Safe T t since K' (p.bind f) past h
  induction p generalizing past h with
  | ret a => exact hf a past h (hp h (Grows.refl t h))
  | load k ih =>
    intro h' hg
    exact ⟨fun hpast => ih T.init ((hp h' hg).1 hpast), fun v hv => ih v ((hp h' hg).2 v hv)⟩
  | store v k ih =>
    intro h' hg
    exact ⟨(hp h' hg).1, ih (hp h' hg).2⟩
  | ask r k ih =>
    intro h' hg
    exact ⟨(hp h' hg).1, fun reply time htime hallowed =>
      ih reply ((hp h' hg).2 reply time htime hallowed)⟩

/-- `between` holds of a thread that is not in a call, `post` of a call that has
returned, in terms of the questions asked until then. -/
structure Contract (T : Terms Θ ν Rep) (code : A → Prog ν Rep α) where
  between : Θ → Bool → List (Asked Θ Rep) → Prop
  between_nil : ∀ t, between t false []
  between_grows : ∀ t past h h', Grows t h h' → between t past h → between t past h'
  post : Θ → A → ℕ → List (Asked Θ Rep) → α → Prop
  safe : ∀ t a since past h, between t past h →
    Safe T t since (fun past h r => between t past h ∧ post t a since h r) (code a) past h

section Run

variable {code : A → Prog ν Rep α}

def Contract.Thread (C : Contract T code) (t : Θ) (past : Bool) (h : List (Asked Θ Rep))
    (now : ℕ) : Phase ν Rep A α → Prop
  | .idle => C.between t past h
  | .busy a since p => since ≤ now ∧
      Safe T t since (fun past h r => C.between t past h ∧ C.post t a since h r) p past h

structure Contract.Holds (C : Contract T code) (s : State Θ ν Rep A α) : Prop where
  message : ∀ m ∈ s.messages, m = ⟨0, T.init⟩ ∨ 0 < m.stamp ∧ T.stored s.asked m.value
  view : ∀ t, 0 ≤ s.view t
  latest : ∀ t, ∃ m ∈ s.messages, m.stamp = s.view t
  thread : ∀ t, C.Thread t (decide (0 < s.view t)) s.asked s.now (s.phase t)
  before : ∀ e ∈ s.asked, e.time < s.now
  asked : ∀ h e h', s.asked = h ++ e :: h' → T.pre e.thread h e.request ∧ T.allowed h e
  call : ∀ c ∈ s.calls, ∃ h, h <+: s.asked ∧ (∀ e ∈ h, e.time < c.ended) ∧
    C.post c.thread c.arg c.started h c.result

variable {C : Contract T code} {s s' : State Θ ν Rep A α}

theorem Contract.Thread.frame {t : Θ} {past : Bool} {h h' : List (Asked Θ Rep)} {now now' : ℕ}
    {phase : Phase ν Rep A α} (ht : C.Thread t past h now phase) (hg : Grows t h h')
    (hnow : now ≤ now') : C.Thread t past h' now' phase := by
  cases phase with
  | idle => exact C.between_grows t past h h' hg ht
  | busy a since p => exact ⟨ht.1.trans hnow, ht.2.grows hg⟩

theorem Contract.Holds.busy (hs : C.Holds s) {t : Θ} {a : A} {since : ℕ} {p : Prog ν Rep α}
    (hphase : s.phase t = .busy a since p) : since ≤ s.now ∧
      Safe T t since (fun past h r => C.between t past h ∧ C.post t a since h r) p
        (decide (0 < s.view t)) s.asked := by
  have ht := hs.thread t
  rwa [hphase] at ht

theorem Contract.Holds.loaded (hs : C.Holds s) {t : Θ} {m : Message ν} (hm : m ∈ s.messages)
    (hview : s.view t ≤ m.stamp) {K : Bool → List (Asked Θ Rep) → α → Prop} {since : ℕ}
    {k : ν → Prog ν Rep α} (hsafe : Safe T t since K (.load k) (decide (0 < s.view t)) s.asked) :
    Safe T t since K (k m.value) (decide (0 < m.stamp)) s.asked := by
  obtain ⟨hinit, hstored⟩ := hsafe s.asked (Grows.refl t s.asked)
  rcases hs.message m hm with rfl | ⟨hpos, hv⟩
  · have hpast : decide (0 < s.view t) = false := by simpa using hview
    simpa using hinit hpast
  · rw [decide_eq_true hpos]
    exact hstored m.value hv

theorem Contract.Holds.later (hs : C.Holds s) : ∀ e ∈ s.asked, e.time < s.now + 1 :=
  fun e he => (hs.before e he).trans (Nat.lt_succ_self _)

theorem Contract.holds_start (C : Contract T code) : C.Holds (start T.init) where
  message := by simp [start]
  view _ := le_rfl
  latest _ := ⟨⟨0, T.init⟩, by simp [start], rfl⟩
  thread t := by simpa [start, Contract.Thread] using C.between_nil t
  before := by simp [start]
  asked := by simp [start]
  call := by simp [start]

variable [DecidableEq Θ]

theorem Contract.Holds.threads (hs : C.Holds s) {t : Θ} {stamp : ℚ} {phase : Phase ν Rep A α}
    {h : List (Asked Θ Rep)} (hother : ∀ u, u ≠ t → Grows u s.asked h)
    (hown : C.Thread t (decide (0 < stamp)) h (s.now + 1) phase) (u : Θ) :
    C.Thread u (decide (0 < Function.update s.view t stamp u)) h (s.now + 1)
      (Function.update s.phase t phase u) := by
  by_cases hu : u = t
  · subst hu
    rwa [Function.update_self, Function.update_self]
  · rw [Function.update_of_ne hu, Function.update_of_ne hu]
    exact (hs.thread u).frame (hother u hu) (Nat.le_succ _)

theorem Contract.Holds.views (hs : C.Holds s) {t : Θ} {stamp : ℚ} (hstamp : 0 ≤ stamp) (u : Θ) :
    0 ≤ Function.update s.view t stamp u := by
  by_cases hu : u = t
  · subst hu
    rwa [Function.update_self]
  · rw [Function.update_of_ne hu]
    exact hs.view u

theorem Contract.Holds.latests (hs : C.Holds s) {t : Θ} {stamp : ℚ}
    {messages : List (Message ν)} (hkept : ∀ m ∈ s.messages, m ∈ messages)
    (hstamp : ∃ m ∈ messages, m.stamp = stamp) (u : Θ) :
    ∃ m ∈ messages, m.stamp = Function.update s.view t stamp u := by
  by_cases hu : u = t
  · subst hu
    rwa [Function.update_self]
  · rw [Function.update_of_ne hu]
    obtain ⟨m, hm, heq⟩ := hs.latest u
    exact ⟨m, hkept m hm, heq⟩

theorem Contract.Holds.step {slow : ρ → Prop} {t : Θ} {f : Effort} (hs : C.Holds s)
    (hstep : Step code T.allowed slow t f s s') : C.Holds s' := by
  have hself : ∀ u, u ≠ t → Grows u s.asked s.asked := fun u _ => Grows.refl u s.asked
  have hview := Function.update_eq_self t s.view
  cases hstep with
  | start a hphase =>
    have hidle : C.between t (decide (0 < s.view t)) s.asked := by
      have ht := hs.thread t
      rwa [hphase] at ht
    have hown : C.Thread t (decide (0 < s.view t)) s.asked (s.now + 1)
        (.busy a s.now (code a)) :=
      ⟨Nat.le_succ _, C.safe t a s.now _ s.asked hidle⟩
    refine ⟨hs.message, hs.view, hs.latest, ?_, hs.later, hs.asked, hs.call⟩
    simpa only [hview] using hs.threads hself hown
  | load m hphase hm hle =>
    obtain ⟨hsince, hsafe⟩ := hs.busy hphase
    refine ⟨hs.message, hs.views ((hs.view t).trans hle),
      hs.latests (fun _ h => h) ⟨m, hm, rfl⟩,
      hs.threads hself ⟨hsince.trans (Nat.le_succ _), hs.loaded hm hle hsafe⟩,
      hs.later, hs.asked, hs.call⟩
  | @store _ a since v k stamp hphase hlt hfresh =>
    obtain ⟨hsince, hsafe⟩ := hs.busy hphase
    obtain ⟨hv, hk⟩ := hsafe s.asked (Grows.refl t s.asked)
    have hpos : 0 < stamp := (hs.view t).trans_lt hlt
    refine ⟨?_, hs.views hpos.le,
      hs.latests (fun _ h => List.mem_cons_of_mem _ h) ⟨_, List.mem_cons_self, rfl⟩,
      hs.threads hself ⟨hsince.trans (Nat.le_succ _), ?_⟩,
      hs.later, hs.asked, hs.call⟩
    · intro m hm
      rcases List.mem_cons.mp hm with rfl | hm
      · exact .inr ⟨hpos, hv⟩
      · exact hs.message m hm
    · rwa [decide_eq_true hpos]
  | @ask _ a since r k reply hphase hallowed =>
    obtain ⟨hsince, hsafe⟩ := hs.busy hphase
    obtain ⟨hpre, hk⟩ := hsafe s.asked (Grows.refl t s.asked)
    have hother : ∀ u, u ≠ t → Grows u s.asked (s.asked ++ [⟨t, r, reply, s.now⟩]) := by
      intro u hu
      refine ⟨_, rfl, fun e he => ?_⟩
      obtain rfl := List.mem_singleton.mp he
      exact hu.symm
    have hown : C.Thread t (decide (0 < s.view t)) (s.asked ++ [⟨t, r, reply, s.now⟩]) (s.now + 1)
        (.busy a since (k reply)) :=
      ⟨hsince.trans (Nat.le_succ _), hk reply s.now hsince hallowed⟩
    refine ⟨?_, hs.view, hs.latest, ?_, ?_, ?_, ?_⟩
    · intro m hm
      rcases hs.message m hm with hm | ⟨hpos, hv⟩
      · exact .inl hm
      · exact .inr ⟨hpos, T.stored_mono _ _ _ hv⟩
    · simpa only [hview] using hs.threads hother hown
    · intro e he
      rcases List.mem_append.mp he with he | he
      · exact hs.later e he
      · obtain rfl := List.mem_singleton.mp he
        exact Nat.lt_succ_self _
    · intro h e h' heq
      rcases snoc_eq_append_cons heq with ⟨rfl, rfl⟩ | ⟨h'', hsplit⟩
      · exact ⟨hpre, hallowed⟩
      · exact hs.asked h e h'' hsplit
    · intro c hc
      obtain ⟨h, hpre, hbefore, hpost⟩ := hs.call c hc
      exact ⟨h, hpre.trans (List.prefix_append ..), hbefore, hpost⟩
  | work hphase hslow =>
    exact ⟨hs.message, hs.view, hs.latest,
      fun u => (hs.thread u).frame (Grows.refl u s.asked) (Nat.le_succ _),
      hs.later, hs.asked, hs.call⟩
  | @ret _ a since result hphase =>
    obtain ⟨hsince, hsafe⟩ := hs.busy hphase
    obtain ⟨hbetween, hpost⟩ := hsafe s.asked (Grows.refl t s.asked)
    refine ⟨hs.message, hs.view, hs.latest, ?_, hs.later, hs.asked, ?_⟩
    · have hown : C.Thread t (decide (0 < s.view t)) s.asked (s.now + 1) .idle := hbetween
      simpa only [hview] using hs.threads hself hown
    · intro c hc
      rcases List.mem_append.mp hc with hc | hc
      · exact hs.call c hc
      · obtain rfl := List.mem_singleton.mp hc
        exact ⟨s.asked, List.prefix_rfl, hs.before, hpost⟩

theorem Contract.Holds.path {slow : ρ → Prop} {ts : List (Θ × Effort)} (hs : C.Holds s)
    (hrun : Path code T.allowed slow ts s s') : C.Holds s' := by
  induction hrun with
  | nil s => exact hs
  | cons hstep _ ih => exact ih (hs.step hstep)

theorem Contract.holds (C : Contract T code) {slow : ρ → Prop} {ts : List (Θ × Effort)}
    (hrun : Path code T.allowed slow ts (start T.init) s) : C.Holds s :=
  C.holds_start.path hrun

end Run

section WaitFree

variable {code : A → Prog ν Rep α}
  {allowed : List (Asked Θ Rep) → Asked Θ Rep → Prop} {slow : ρ → Prop}
  {s s' : State Θ ν Rep A α} {t : Θ} {f : Effort}

theorem Prog.Within.succ {n : ℕ} {p : Prog ν Rep α} (h : p.Within n) : p.Within (n + 1) := by
  induction n generalizing p with
  | zero => exact h.elim
  | succ n ih =>
    cases p with
    | ret a => trivial
    | load k => exact fun v => ih (h v)
    | store v k => exact ih h
    | ask r k => exact fun reply => ih (h reply)

theorem Prog.Within.mono {m n : ℕ} {p : Prog ν Rep α} (h : p.Within m) (hmn : m ≤ n) :
    p.Within n := by
  induction hmn with
  | refl => exact h
  | step _ ih => exact ih.succ

theorem Prog.Within.bind {m n : ℕ} {p : Prog ν Rep α} {f : α → Prog ν Rep β} (hp : p.Within m)
    (hf : ∀ a, (f a).Within (n + 1)) : (p >>= f).Within (m + n) := by
  change (p.bind f).Within (m + n)
  induction m generalizing p with
  | zero => exact hp.elim
  | succ m ih =>
    rw [Nat.succ_add]
    cases p with
    | ret a => exact (hf a).mono (by omega)
    | load k => exact fun v => ih (hp v)
    | store v k => exact ih hp
    | ask r k => exact fun reply => ih (hp reply)

variable [DecidableEq Θ]

theorem Step.phase_other {u : Θ} (hstep : Step code allowed slow u f s s') (hu : t ≠ u) :
    s'.phase t = s.phase t := by
  cases hstep with
  | start a hphase => exact Function.update_of_ne hu _ _
  | load m hphase hm hle => exact Function.update_of_ne hu _ _
  | store stamp hphase hlt hfresh => exact Function.update_of_ne hu _ _
  | ask reply hphase hallowed => exact Function.update_of_ne hu _ _
  | work hphase hslow => rfl
  | ret hphase => exact Function.update_of_ne hu _ _

theorem Step.calls_subset (hstep : Step code allowed slow t f s s') : s.calls ⊆ s'.calls := by
  cases hstep with
  | start a hphase => exact List.Subset.refl _
  | load m hphase hm hle => exact List.Subset.refl _
  | store stamp hphase hlt hfresh => exact List.Subset.refl _
  | ask reply hphase hallowed => exact List.Subset.refl _
  | work hphase hslow => exact List.Subset.refl _
  | ret hphase => exact List.subset_append_left _ _

theorem Path.calls_subset {ts : List (Θ × Effort)} (hrun : Path code allowed slow ts s s') :
    s.calls ⊆ s'.calls := by
  induction hrun with
  | nil s => exact List.Subset.refl _
  | cons hstep _ ih => exact List.Subset.trans hstep.calls_subset ih

theorem Step.phase_work (hstep : Step code allowed slow t .work s s') : s'.phase = s.phase := by
  cases hstep with
  | work hphase hslow => rfl

theorem Step.nearer {a : A} {since n : ℕ} {p : Prog ν Rep α}
    (hstep : Step code allowed slow t .step s s') (hphase : s.phase t = .busy a since p)
    (hp : p.Within (n + 1)) :
    (∃ p', s'.phase t = .busy a since p' ∧ p'.Within n) ∨
      ∃ c ∈ s'.calls, c.thread = t ∧ c.arg = a ∧ c.started = since := by
  cases hstep with
  | start b hidle => simp [hphase] at hidle
  | load m hbusy hm hle =>
    obtain ⟨rfl, rfl, rfl⟩ := Phase.busy.inj (hphase.symm.trans hbusy)
    exact .inl ⟨_, Function.update_self _ _ _, hp m.value⟩
  | store stamp hbusy hlt hfresh =>
    obtain ⟨rfl, rfl, rfl⟩ := Phase.busy.inj (hphase.symm.trans hbusy)
    exact .inl ⟨_, Function.update_self _ _ _, hp⟩
  | ask reply hbusy hallowed =>
    obtain ⟨rfl, rfl, rfl⟩ := Phase.busy.inj (hphase.symm.trans hbusy)
    exact .inl ⟨_, Function.update_self _ _ _, hp reply⟩
  | ret hbusy =>
    obtain ⟨rfl, rfl, rfl⟩ := Phase.busy.inj (hphase.symm.trans hbusy)
    exact .inr ⟨_, List.mem_append_right _ List.mem_cons_self, rfl, rfl, rfl⟩

theorem Path.returns {ts : List (Θ × Effort)} {a : A} {since n : ℕ} {p : Prog ν Rep α}
    (hrun : Path code allowed slow ts s s') (hphase : s.phase t = .busy a since p)
    (hp : p.Within n) (hn : n ≤ ts.count (t, .step)) : ∃ c ∈ s'.calls, c.thread = t ∧ c.arg = a ∧ c.started = since := by
  induction hrun generalizing n p with
  | nil s =>
    obtain rfl : n = 0 := by simpa using hn
    exact hp.elim
  | @cons u f ts s v w hstep rest ih =>
    by_cases hu : u = t
    · subst hu
      cases f with
      | work =>
        refine ih ((congrFun hstep.phase_work u).trans hphase) hp ?_
        rwa [List.count_cons_of_ne (by simp)] at hn
      | step =>
        cases n with
        | zero => exact hp.elim
        | succ n =>
          rcases hstep.nearer hphase hp with ⟨p', hphase', hp'⟩ | ⟨c, hc, hcall⟩
          · exact ih hphase' hp' (by simpa using hn)
          · exact ⟨c, rest.calls_subset hc, hcall⟩
    · refine ih ((hstep.phase_other (Ne.symm hu)).trans hphase) hp ?_
      rwa [List.count_cons_of_ne (by simp [hu])] at hn

theorem updated {f : Θ → Phase ν Rep A α} {x y : Phase ν Rep A α}
    (h : Function.update f t x t = y) : x = y :=
  (Function.update_self t x f).symm.trans h

theorem Step.within {n : ℕ} (hcode : ∀ a, (code a).Within n)
    (hstep : Step code allowed slow t f s s')
    (hs : ∀ a since p, s.phase t = .busy a since p → p.Within n) {a : A} {since : ℕ}
    {p : Prog ν Rep α} (hphase : s'.phase t = .busy a since p) : p.Within n := by
  obtain _ | n := n
  · exact (hcode a).elim
  cases hstep with
  | start b hidle =>
    obtain ⟨rfl, rfl, rfl⟩ := Phase.busy.inj (updated hphase)
    exact hcode b
  | load m hbusy hm hle =>
    obtain ⟨rfl, rfl, rfl⟩ := Phase.busy.inj (updated hphase)
    exact (hs _ _ _ hbusy m.value).succ
  | store stamp hbusy hlt hfresh =>
    obtain ⟨rfl, rfl, rfl⟩ := Phase.busy.inj (updated hphase)
    exact Prog.Within.succ (hs _ _ _ hbusy)
  | ask reply hbusy hallowed =>
    obtain ⟨rfl, rfl, rfl⟩ := Phase.busy.inj (updated hphase)
    exact (hs _ _ _ hbusy reply).succ
  | work hbusy hslow => exact hs _ _ _ hphase
  | ret hbusy => cases updated hphase

theorem Path.within {ts : List (Θ × Effort)} {n : ℕ} (hcode : ∀ a, (code a).Within n)
    (hs : ∀ t a since p, s.phase t = .busy a since p → p.Within n)
    (hrun : Path code allowed slow ts s s') {a : A} {since : ℕ} {p : Prog ν Rep α}
    (hphase : s'.phase t = .busy a since p) : p.Within n := by
  induction hrun with
  | nil s => exact hs t a since p hphase
  | @cons u f ts s v w hstep rest ih =>
    refine ih ?_ hphase
    intro x b since' q hq
    by_cases hx : x = u
    · subst hx
      exact hstep.within hcode (hs x) hq
    · exact hs x b since' q ((hstep.phase_other hx).symm.trans hq)

theorem exists_fresh (messages : List (Message ν)) (view : ℚ) :
    ∃ stamp, view < stamp ∧ ∀ m ∈ messages, m.stamp ≠ stamp := by
  -- Above every stamp there is room.
  obtain ⟨stamp, hview, habove⟩ : ∃ stamp, view < stamp ∧ ∀ m ∈ messages, m.stamp < stamp := by
    induction messages with
    | nil => exact ⟨view + 1, lt_add_one view, by simp⟩
    | cons m ms ih =>
      obtain ⟨stamp, hview, habove⟩ := ih
      refine ⟨max stamp (m.stamp + 1), lt_max_of_lt_left hview, ?_⟩
      intro x hx
      rcases List.mem_cons.mp hx with rfl | hx
      · exact lt_max_of_lt_right (lt_add_one _)
      · exact lt_max_of_lt_left (habove x hx)
  exact ⟨stamp, hview, fun m hm => (habove m hm).ne⟩

/-- A thread in a call is never held up: whatever it does next can be done. -/
theorem Contract.Holds.exists_step {T : Terms Θ ν Rep} {C : Contract T code} (hs : C.Holds s)
    (answers : ∀ h t r time, ∃ reply, T.allowed h ⟨t, r, reply, time⟩) {a : A} {since : ℕ}
    {p : Prog ν Rep α} (hphase : s.phase t = .busy a since p) :
    ∃ s', Step code T.allowed slow t .step s s' := by
  cases p with
  | ret result => exact ⟨_, .ret hphase⟩
  | load k =>
    obtain ⟨m, hm, heq⟩ := hs.latest t
    exact ⟨_, .load m hphase hm heq.ge⟩
  | store v k =>
    obtain ⟨stamp, hlt, hfresh⟩ := exists_fresh s.messages (s.view t)
    exact ⟨_, .store stamp hphase hlt hfresh⟩
  | ask r k =>
    obtain ⟨reply, hreply⟩ := answers s.asked t r s.now
    exact ⟨_, .ask reply hphase hreply⟩

end WaitFree

end RustyLibc.SharedCell
