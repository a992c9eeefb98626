import TimedMutation.Engine.Error

/-! A fixed number of engines, handed out one at a time. -/

namespace TimedMutation

/-- Engines by their numbers. The one that was returned last is handed out first. -/
structure Pool where
  capacity : Nat
  idle : List Nat
  deriving DecidableEq, Repr

namespace Pool

/-- A pool whose engines are all idle. -/
def ofSize (n : Nat) : Pool := ⟨n, (List.range n).reverse⟩

def available (p : Pool) : Nat := p.idle.length

/-- An idle engine and the pool without it. -/
def acquire? (p : Pool) : Option (Nat × Pool) :=
  match p.idle with
  | [] => none
  | engine :: idle => some (engine, { p with idle })

/-- An idle engine after a wait of at most `limit` milliseconds in which none comes back. -/
def acquire (p : Pool) (limit : Nat) : Except EngineError (Nat × Pool) :=
  match p.acquire? with
  | some lease => .ok lease
  | none => .error (.exhausted limit)

def release (p : Pool) (engine : Nat) : Pool := { p with idle := engine :: p.idle }

@[simp] theorem available_ofSize (n : Nat) : (ofSize n).available = n := by
  simp [ofSize, available]

@[simp] theorem available_release (p : Pool) (engine : Nat) :
    (p.release engine).available = p.available + 1 := rfl

theorem available_of_acquire? {p q : Pool} {engine : Nat} (h : p.acquire? = some (engine, q)) :
    p = q.release engine := by
  obtain ⟨capacity, idle⟩ := p
  cases idle with
  | nil => simp [acquire?] at h
  | cons e rest =>
    simp only [acquire?, Option.some.injEq, Prod.mk.injEq] at h
    obtain ⟨rfl, rfl⟩ := h
    rfl

/-- The state of the pool on one line. -/
def render (p : Pool) : String :=
  "EnginePool \x7b capacity: " ++ Text.ofNat p.capacity ++ ", available: " ++
    Text.ofNat p.available ++ " \x7d"

end Pool

end TimedMutation
