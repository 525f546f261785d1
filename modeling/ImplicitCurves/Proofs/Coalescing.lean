import ImplicitCurves.Coalescer
import Mathlib.Data.List.Basic

/-!
# The latest request is served

Requests that callbacks make are remembered and do nothing else.  So a request from outside leads to
one computation after another, each for the last request that was made around the one before, up to
the first one around which none was made: main statement `Coalescer.run_serves_latest`.
-/

namespace ImplicitCurves

variable {P R σ : Type}

/-- What happens around one computation: its parameter and result, and the requests that are made while
the result is computed and while it is delivered. -/
structure Round (P R : Type) where
  parameter : P
  result : R
  computing : List P
  delivering : List P
deriving DecidableEq

/-- The requests that are made around a computation, in order. -/
def Round.requests (r : Round P R) : List P :=
  r.computing ++ r.delivering

namespace Worker

/-- One computation and the delivery of its result. -/
def perform (w : Worker P R σ) (parameter : P) (s : σ) : Round P R × σ :=
  let (result, computing, s) := w.compute parameter s
  let (delivering, s) := w.deliver result s
  (⟨parameter, result, computing, delivering⟩, s)

/-- While `waiting` is the request to serve, some rounds are performed, each for the last request made
during the one before.  What waits to be served changes with each of them. -/
inductive Serves (w : Worker P R σ) : Option P → σ → List (Round P R) → Option P → σ → Prop where
  | stop (waiting : Option P) (s : σ) : Serves w waiting s [] waiting s
  | step {p : P} {s t u : σ} {r : Round P R} {rounds : List (Round P R)} {waiting : Option P} :
    w.perform p s = (r, t) → Serves w r.requests.getLast? t rounds waiting u →
      Serves w (some p) s (r :: rounds) waiting u

/-- Rounds that leave nothing to serve start with the given request, and each but the last one is
followed by one for its last request.  There are no requests during the last one. -/
theorem Serves.parameters {w : Worker P R σ} {waiting : Option P} {s t : σ}
    {rounds : List (Round P R)} (h : w.Serves waiting s rounds none t) :
    rounds.map (fun r => some r.parameter) ++ [none] =
      waiting :: rounds.map fun r => r.requests.getLast? := by
  generalize hnone : (none : Option P) = rest at h
  induction h with
  | stop waiting s =>
    subst hnone
    rfl
  | @step p s t u r rounds waiting hperform _ ih =>
    have hparameter : r.parameter = p := by
      have hround := congrArg (fun pair : Round P R × σ => pair.1.parameter) hperform
      exact hround.symm
    rw [List.map_cons, List.map_cons, List.cons_append, hparameter, ih hnone]

/-- Either nothing waits to be served after at most `limit` rounds, or something still does after that
many. -/
theorem exists_serves (w : Worker P R σ) (limit : Nat) (p : P) (s : σ) :
    (∃ rounds t, w.Serves (some p) s rounds none t ∧ rounds.length ≤ limit) ∨
      ∃ rounds q t, w.Serves (some p) s rounds (some q) t ∧ rounds.length = limit := by
  induction limit generalizing p s with
  | zero => exact .inr ⟨[], p, s, .stop _ s, rfl⟩
  | succ limit ih =>
    obtain ⟨r, t, hperform⟩ : ∃ r t, w.perform p s = (r, t) := ⟨_, _, rfl⟩
    cases hwaiting : r.requests.getLast? with
    | none =>
      refine .inl ⟨[r], t, .step hperform ?_, by simp⟩
      rw [hwaiting]
      exact .stop none t
    | some next =>
      rcases ih next t with ⟨rounds, u, hserves, hlength⟩ | ⟨rounds, q, u, hserves, hlength⟩
      · refine .inl ⟨r :: rounds, u, .step hperform (hwaiting ▸ hserves), ?_⟩
        simpa using hlength
      · refine .inr ⟨r :: rounds, q, u, .step hperform (hwaiting ▸ hserves), ?_⟩
        simpa using hlength

end Worker

/-! ### What is told of rounds -/

/-- Requests that are remembered while a computation is going on. -/
def remembered (requests : List P) : List (CoalescerEvent P R) :=
  requests.map fun q => .request q false ⟨true, some q⟩

/-- What is told of a round that starts with nothing waiting. -/
def Round.log (r : Round P R) : List (CoalescerEvent P R) :=
  .compute r.parameter ⟨true, none⟩ :: remembered r.computing ++
    .deliver r.result ⟨true, r.computing.getLast?⟩ :: remembered r.delivering

namespace CoalescerEvent

/-- The state of the coalescer at an event. -/
def state : CoalescerEvent P R → Coalescer P
  | compute _ c | request _ _ c | deliver _ c | done _ c => c

/-- The parameter that a computation starts for, or the result that is delivered. -/
def work? : CoalescerEvent P R → Option (P ⊕ R)
  | compute parameter _ => some (.inl parameter)
  | deliver result _ => some (.inr result)
  | request _ _ _ | done _ _ => none

end CoalescerEvent

theorem work?_remembered (requests : List P) :
    (remembered requests : List (CoalescerEvent P R)).filterMap CoalescerEvent.work? = [] := by
  simp [remembered, CoalescerEvent.work?]

/-- A round computes once and delivers once. -/
theorem Round.work?_log (r : Round P R) :
    r.log.filterMap CoalescerEvent.work? = [.inl r.parameter, .inr r.result] := by
  simp [log, work?_remembered, CoalescerEvent.work?]

/-- A computation is going on throughout a round. -/
theorem Round.running_of_mem_log {r : Round P R} {event : CoalescerEvent P R}
    (h : event ∈ r.log) : event.state.running = true := by
  simp only [log, remembered, List.cons_append, List.mem_cons, List.mem_append, List.mem_map] at h
  rcases h with rfl | ⟨q, -, rfl⟩ | rfl | ⟨q, -, rfl⟩ <;> rfl

namespace Coalescer

variable (serve : Service P R σ)

/-- While a computation is going on, a request is remembered and does nothing else. -/
theorem request_of_running {c : Coalescer P} (h : c.running = true) (p : P) (s : σ) :
    c.request serve p s = some ⟨[], false, c.remember p, s⟩ :=
  if_pos h

/-- Of the requests that are made while a computation is going on, the last one is kept. -/
theorem nested_of_running (requests : List P) (waiting : Option P) (s : σ) :
    nested serve requests ⟨true, waiting⟩ s =
      some (remembered requests, ⟨true, requests.getLast?.or waiting⟩, s) := by
  induction requests generalizing waiting with
  | nil => rfl
  | cons q requests ih =>
    have hlatest : requests.getLast?.or (some q) = (q :: requests).getLast?.or waiting := by
      cases hlast : requests.getLast? <;> simp [List.getLast?_cons, hlast]
    rw [nested, request_of_running serve rfl]
    simp only [Option.bind_eq_bind, Option.bind_some, remember, ih, hlatest]
    rfl

/-- A round does what its worker does, and leaves its last request waiting. -/
theorem round_eq (w : Worker P R σ) {p : P} {s t : σ} {r : Round P R}
    (h : w.perform p s = (r, t)) :
    round w serve ⟨true, none⟩ p s = some (r.log, ⟨true, r.requests.getLast?⟩, t) := by
  obtain ⟨rfl, rfl⟩ := Prod.mk.inj h
  simp only [round, nested_of_running, Option.bind_eq_bind, Option.bind_some,
    Option.or_none, Round.log, Round.requests, List.getLast?_append]

/-- Rounds that leave nothing to serve are what comes of a request. -/
theorem serve_of_serves {w : Worker P R σ} {limit : Nat} {p : P} {s t : σ}
    {rounds : List (Round P R)} (h : w.Serves (some p) s rounds none t)
    (hlength : rounds.length ≤ limit) :
    Coalescer.serve w limit ⟨true, none⟩ p s = some ⟨rounds.flatMap Round.log, true, idle, t⟩ := by
  induction limit generalizing p s rounds with
  | zero =>
    obtain rfl := List.length_eq_zero_iff.1 (Nat.le_zero.1 hlength)
    cases h
  | succ limit ih =>
    cases h with
    | @step _ _ u _ r rest _ hperform hrest =>
      simp only [Coalescer.serve, round_eq _ w hperform, Option.bind_eq_bind, Option.bind_some]
      cases hwaiting : r.requests.getLast? with
      | none =>
        rw [hwaiting] at hrest
        cases hrest
        simp [idle]
      | some next =>
        rw [hwaiting] at hrest
        simp [ih hrest (by simpa using hlength)]

/-- There is no outcome while there is still something to serve. -/
theorem serve_of_waiting {w : Worker P R σ} {p q : P} {s t : σ} {rounds : List (Round P R)}
    (h : w.Serves (some p) s rounds (some q) t) :
    Coalescer.serve w rounds.length ⟨true, none⟩ p s = none := by
  induction rounds generalizing p s with
  | nil => rfl
  | cons r rest ih =>
    cases h with
    | @step _ _ u _ _ _ _ hperform hrest =>
      rw [List.length_cons]
      simp only [Coalescer.serve, round_eq _ w hperform, Option.bind_eq_bind, Option.bind_some]
      cases hwaiting : r.requests.getLast? with
      | none => rw [hwaiting] at hrest; cases hrest
      | some next => rw [hwaiting] at hrest; simp [ih hrest]

/-- Where a request of an idle coalescer comes to something, it is served by rounds that leave nothing
to serve, and nothing else happens. -/
theorem run_idle_eq_some_iff {w : Worker P R σ} {limit : Nat} {p : P} {s : σ} {o : Outcome P R σ} :
    idle.run w limit p s = some o ↔ ∃ rounds t, w.Serves (some p) s rounds none t ∧
      rounds.length ≤ limit ∧
        o = ⟨rounds.flatMap Round.log ++ [.done true idle], true, idle, t⟩ := by
  have hrun : ∀ {rounds t}, w.Serves (some p) s rounds none t → rounds.length ≤ limit →
      idle.run w limit p s =
        some ⟨rounds.flatMap Round.log ++ [.done true idle], true, idle, t⟩ := by
    intro rounds t hserves hlength
    simp [run, request, serve_of_serves hserves hlength, idle]
  constructor
  · intro h
    rcases w.exists_serves limit p s with ⟨rounds, t, hserves, hlength⟩ | ⟨rounds, q, t, hwaits, rfl⟩
    · rw [hrun hserves hlength] at h
      exact ⟨rounds, t, hserves, hlength, (Option.some.inj h).symm⟩
    · simp [run, request, idle, serve_of_waiting hwaits] at h
  · rintro ⟨rounds, t, hserves, hlength, rfl⟩
    exact hrun hserves hlength

/-- Where a request of an idle coalescer comes to nothing, there is still something to serve after as
many rounds as are allowed. -/
theorem run_idle_eq_none_iff {w : Worker P R σ} {limit : Nat} {p : P} {s : σ} :
    idle.run w limit p s = none ↔ ∃ rounds q t, w.Serves (some p) s rounds (some q) t ∧
      rounds.length = limit := by
  constructor
  · intro h
    rcases w.exists_serves limit p s with ⟨rounds, t, hserves, hlength⟩ | hwaits
    · rw [run_idle_eq_some_iff.2 ⟨rounds, t, hserves, hlength, rfl⟩] at h
      cases h
    · exact hwaits
  · rintro ⟨rounds, q, t, hwaits, rfl⟩
    simp [run, request, idle, serve_of_waiting hwaits]

/-- A coalescer loses no latest request and never nests computations.  A request that is made while a
computation is going on is remembered and changes nothing else.  A request of an idle coalescer is
served by rounds, of which each but the first is for the last request made during the one before it,
and the last is the first one without requests: the callbacks do in turn what they do in these rounds,
and the coalescer is idle again in the end.  If there are no such rounds, then there is no end. -/
theorem run_serves_latest (w : Worker P R σ) (limit : Nat) :
    (∀ (c : Coalescer P) (p : P) (s : σ), c.running = true → c.run w limit p s =
      some ⟨[.done false { c with pending := some p }], false, { c with pending := some p }, s⟩) ∧
    (∀ (p : P) (s : σ) (o : Outcome P R σ), idle.run w limit p s = some o ↔
      ∃ rounds t, w.Serves (some p) s rounds none t ∧ rounds.length ≤ limit ∧
        o = ⟨rounds.flatMap Round.log ++ [.done true idle], true, idle, t⟩) ∧
    (∀ (p : P) (s : σ), idle.run w limit p s = none ↔
      ∃ rounds q t, w.Serves (some p) s rounds (some q) t ∧ rounds.length = limit) ∧
    (∀ (p : P) (s t : σ) (rounds : List (Round P R)), w.Serves (some p) s rounds none t →
      rounds.map (fun r => some r.parameter) ++ [none] =
        some p :: rounds.map fun r => r.requests.getLast?) ∧
    ∀ (p : P) (s : σ) (o : Outcome P R σ), idle.run w limit p s = some o →
      (∃ rounds t, w.Serves (some p) s rounds none t ∧ o.events.filterMap CoalescerEvent.work? =
        rounds.flatMap fun r => [.inl r.parameter, .inr r.result]) ∧
      ∀ event ∈ o.events, event.state.pending.isSome = true → event.state.running = true := by
  refine ⟨fun c p s hrunning => ?_, fun p s o => run_idle_eq_some_iff,
    fun p s => run_idle_eq_none_iff, fun p s t rounds => Worker.Serves.parameters, fun p s o ho => ?_⟩
  · simp [run, request_of_running _ hrunning, remember]
  · obtain ⟨rounds, t, hserves, -, rfl⟩ := run_idle_eq_some_iff.1 ho
    refine ⟨⟨rounds, t, hserves, ?_⟩, fun event hevent hpending => ?_⟩
    · simp [List.filterMap_append, List.filterMap_flatMap, Round.work?_log, CoalescerEvent.work?]
    · rcases List.mem_append.1 hevent with hround | hdone
      · obtain ⟨r, -, hlog⟩ := List.mem_flatMap.1 hround
        exact Round.running_of_mem_log hlog
      · obtain rfl := List.mem_singleton.1 hdone
        cases hpending

/-- Two and three are requested while one is computed, and four while the result for three is
delivered: one, three and four are computed, and two is not. -/
theorem run_serves_latest_inBothCallbacks :
    let w : Worker Nat Nat Unit :=
      ⟨fun p s => (10 * p, if p = 1 then [2, 3] else [], s), fun r s => (if r = 30 then [4] else [], s)⟩
    let busy : Coalescer Nat := ⟨true, some 2⟩
    busy.running = true ∧ busy.run w 0 3 () = some ⟨[.done false ⟨true, some 3⟩], false,
      ⟨true, some 3⟩, ()⟩ ∧
    ∃ o, idle.run w 3 1 () = some o ∧ o.served = true ∧ o.coalescer = idle ∧
      o.events.filterMap CoalescerEvent.work? =
        [.inl 1, .inr 10, .inl 3, .inr 30, .inl 4, .inr 40] := by
  intro w busy
  obtain ⟨hbusy, -⟩ := run_serves_latest w 0
  obtain ⟨-, hidle, -, -⟩ := run_serves_latest w 3
  refine ⟨rfl, hbusy busy 3 () rfl, _, (hidle 1 () _).2 ⟨[⟨1, 10, [2, 3], []⟩, ⟨3, 30, [], [4]⟩,
    ⟨4, 40, [], []⟩], (), ?_, Nat.le_refl _, rfl⟩, rfl, rfl, by decide⟩
  exact .step rfl (.step rfl (.step rfl (.stop none ())))

end Coalescer

end ImplicitCurves
