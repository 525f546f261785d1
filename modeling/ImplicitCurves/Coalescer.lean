/-!
# Coalescing requests

Requests to recompute something can arrive faster than they can be served.  A coalescer does one
computation at a time and remembers only the latest request that came in meanwhile, which is served
next.

The work is given as callbacks that can make further requests themselves, of the same coalescer.  What
happens is told by a list of events, each with the state of the coalescer right then.
-/

namespace ImplicitCurves

variable {P R σ : Type}

/-- Whether a computation is going on, and the latest request that waits for it to end. -/
structure Coalescer (P : Type) where
  running : Bool
  pending : Option P
deriving DecidableEq, Repr

/-- A coalescer with nothing to do. -/
def Coalescer.idle : Coalescer P :=
  ⟨false, none⟩

/-- What is done for a request.  Both callbacks change a state of their own and can make further
requests. -/
structure Worker (P R σ : Type) where
  /-- Computes the result for a parameter. -/
  compute : P → σ → R × List P × σ
  /-- Delivers a result. -/
  deliver : R → σ → List P × σ

/-- What happens during a request, with the state of the coalescer. -/
inductive CoalescerEvent (P R : Type) where
  /-- A computation starts. -/
  | compute (parameter : P) (state : Coalescer P)
  /-- A request that a callback made is over; `served` says whether it was served itself. -/
  | request (parameter : P) (served : Bool) (state : Coalescer P)
  /-- A result is delivered. -/
  | deliver (result : R) (state : Coalescer P)
  /-- The request that started it all is over. -/
  | done (served : Bool) (state : Coalescer P)
deriving DecidableEq, Repr

namespace Coalescer

/-- Takes up a request while a computation is going on.  It replaces one that waits already. -/
def remember (c : Coalescer P) (parameter : P) : Coalescer P :=
  { c with pending := some parameter }

/-- What a request comes to. -/
structure Outcome (P R σ : Type) where
  events : List (CoalescerEvent P R)
  served : Bool
  coalescer : Coalescer P
  state : σ

/-- How requests are served that find no computation going on. -/
abbrev Service (P R σ : Type) := Coalescer P → P → σ → Option (Outcome P R σ)

/-- Makes a request.  While a computation is going on it is only remembered. -/
def request (serve : Service P R σ) (c : Coalescer P) (parameter : P) (s : σ) :
    Option (Outcome P R σ) :=
  if c.running then some ⟨[], false, c.remember parameter, s⟩
  else serve { c with running := true } parameter s

/-- Makes the requests of a callback, one after another. -/
def nested (serve : Service P R σ) : List P → Coalescer P → σ →
    Option (List (CoalescerEvent P R) × Coalescer P × σ)
  | [], c, s => some ([], c, s)
  | p :: ps, c, s => do
    let o ← c.request serve p s
    let (events, c, s) ← nested serve ps o.coalescer o.state
    some (o.events ++ .request p o.served o.coalescer :: events, c, s)

/-- Computes and delivers the result for one parameter. -/
def round (w : Worker P R σ) (serve : Service P R σ) (c : Coalescer P) (parameter : P) (s : σ) :
    Option (List (CoalescerEvent P R) × Coalescer P × σ) := do
  let start := CoalescerEvent.compute parameter c
  let (result, requests, s) := w.compute parameter s
  let (computing, c, s) ← nested serve requests c s
  let delivery := CoalescerEvent.deliver result c
  let (requests, s) := w.deliver result s
  let (delivering, c, s) ← nested serve requests c s
  some (start :: computing ++ delivery :: delivering, c, s)

/-- Computes for a parameter, and then for the latest request made meanwhile, as long as there is
one.  There is no outcome if more than `limit` computations are needed. -/
def serve (w : Worker P R σ) : (limit : Nat) → Service P R σ
  | 0, _, _, _ => none
  | limit + 1, c, parameter, s => do
    let (events, c, s) ← round w (serve w limit) c parameter s
    match c.pending with
    | none => some ⟨events, true, { c with running := false }, s⟩
    | some next =>
      let o ← serve w limit { c with pending := none } next s
      some { o with events := events ++ o.events }

/-- Makes a request from outside of all callbacks. -/
def run (w : Worker P R σ) (limit : Nat) (c : Coalescer P) (parameter : P) (s : σ) :
    Option (Outcome P R σ) := do
  let o ← c.request (serve w limit) parameter s
  some { o with events := o.events ++ [.done o.served o.coalescer] }

end Coalescer

end ImplicitCurves
