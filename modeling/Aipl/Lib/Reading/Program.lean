import Aipl.Lib.Bits
import Aipl.Lib.Outcome

/-! # Library — programs that read bytes through a cursor

A program reads the bytes of an input at a cursor, moves the cursor by lengths it has read, fails once,
and fills vectors from a bounded memory.  Its machine keeps the cursor in a signed 32-bit word, where a
sum wraps; its ideal keeps it in a natural number, and admits a length only where the sum is a word
that is not negative, a place to go to only where the cursor has not passed it, and an entry only where
there is memory for it.  Nothing here names a program.

* `Reading.exec` — a run of the machine, with what it read and how it moved.
* `Reading.ideal` — a run of the ideal.
-/

namespace Aipl.Lib

open Outcome

/-- Bytes to read: how many, and the byte at a place. -/
structure Input where
  len : BitVec 32
  byteAt : BitVec 32 → BitVec 8
  short : len.toNat < 2 ^ 31

/-- A program that reads. -/
inductive Reading : Type → Type 1 where
  | ret {α : Type} (a : α) : Reading α
  | seq {α β : Type} (p : Reading α) (f : α → Reading β) : Reading β
  /-- The byte at the cursor, which moves past it. -/
  | read : Reading (BitVec 32)
  | pos : Reading (BitVec 32)
  | failed : Reading Bool
  /-- A failure, at a place or else at the cursor.  The first is kept. -/
  | report (what : String) (place : Option (BitVec 32)) : Reading Unit
  | forget : Reading Unit
  /-- The cursor moves by a length. -/
  | skip (n : BitVec 32) : Reading Unit
  /-- The cursor moves to a place. -/
  | seek (place : BitVec 32) : Reading Unit
  /-- Memory for one entry more. -/
  | hold : Reading Unit
  /-- Rounds `1`, `2`, … while the round is at most `count`, as signed words.  A round pushes an entry, or
  leaves the loop. -/
  | times {α σ : Type} (count : BitVec 32) (round : σ → Reading (Option (α × σ))) (s : σ) :
      Reading (List α × Bool)
  | loop {ρ σ : Type} (round : σ → Reading (σ ⊕ ρ)) (s : σ) : Reading ρ

instance : Monad Reading where
  pure := Reading.ret
  bind := Reading.seq

/-- The state of the machine. -/
structure Reader where
  pos : BitVec 32
  failed : Bool
  msg : String
  /-- The entries that the vectors hold. -/
  held : Nat
deriving DecidableEq

/-- What a run did, in order. -/
inductive Event where
  | read (place : BitVec 32)
  | move (old new : BitVec 32)
deriving DecidableEq

/-- A read inside the input, or a move that is not back. -/
def Event.Calm (i : Input) : Event → Prop
  | read place => 0 ≤ place.toInt ∧ place.toInt < i.len.toInt
  | move old new => old.toInt ≤ new.toInt

/-- The state of the ideal. -/
structure Cursor where
  pos : Nat
  failed : Bool
  held : Nat
deriving DecidableEq

namespace Reading

variable {α β ρ σ : Type} (i : Input) (room : Nat)

/-! ### The machine -/

def reportTo (r : Reader) (what : String) (place : Option (BitVec 32)) : Reader :=
  if r.failed then r
  else { r with failed := true, msg := r.msg ++ what ++ " at byte " ++ toString (place.getD r.pos).toInt }

/-- A run after another, of which the log is put behind the other's. -/
def andThen (o : Outcome (α × Reader × List Event)) (k : α → Reader → Outcome (β × Reader × List Event)) :
    Outcome (β × Reader × List Event) := do
  let (a, r, l) ← o
  let (b, r, l') ← k a r
  pure (b, r, l ++ l')

/-- What follows a round of `times`. -/
def timesNext (rest : σ → Reader → Outcome ((List α × Bool) × Reader × List Event)) :
    Option (α × σ) → Reader → Outcome ((List α × Bool) × Reader × List Event)
  | none, r => done (([], true), r, [])
  | some (x, s), r =>
    if r.held < room then
      andThen (rest s { r with held := r.held + 1 }) fun rest r => done ((x :: rest.1, rest.2), r, [])
    else stop

/-- The rounds from `k` on. -/
def timesRun (run : σ → Reader → Outcome (Option (α × σ) × Reader × List Event)) (count : BitVec 32) :
    Nat → BitVec 32 → σ → Reader → Outcome ((List α × Bool) × Reader × List Event)
  | 0, _, _, _ => outOfFuel
  | fuel + 1, k, s, r =>
    if count.slt k then done (([], false), r, [])
    else andThen (run s r) (timesNext room (timesRun run count fuel (k + 1#32)))

/-- What follows a round of `loop`. -/
def loopNext (rest : σ → Reader → Outcome (ρ × Reader × List Event)) :
    σ ⊕ ρ → Reader → Outcome (ρ × Reader × List Event)
  | .inl s, r => rest s r
  | .inr b, r => done (b, r, [])

def loopRun (run : σ → Reader → Outcome ((σ ⊕ ρ) × Reader × List Event)) :
    Nat → σ → Reader → Outcome (ρ × Reader × List Event)
  | 0, _, _ => outOfFuel
  | fuel + 1, s, r => andThen (run s r) (loopNext (loopRun run fuel))

/-- A run of the machine: what it returns, its state, and what it did. -/
def exec (fuel : Nat) {α : Type} : Reading α → Reader → Outcome (α × Reader × List Event)
  | .ret a, r => done (a, r, [])
  | .seq p f, r => andThen (exec fuel p r) fun a r => exec fuel (f a) r
  | .read, r => do
    require ((0#32).sle r.pos && r.pos.slt i.len)
    pure ((i.byteAt r.pos).setWidth 32, { r with pos := r.pos + 1#32 },
      [.read r.pos, .move r.pos (r.pos + 1#32)])
  | .pos, r => done (r.pos, r, [])
  | .failed, r => done (r.failed, r, [])
  | .report what place, r => done ((), reportTo r what place, [])
  | .forget, r => done ((), { r with failed := false, msg := "" }, [])
  | .skip n, r => done ((), { r with pos := r.pos + n }, [.move r.pos (r.pos + n)])
  | .seek place, r => done ((), { r with pos := place }, [.move r.pos place])
  | .hold, r => if r.held < room then done ((), { r with held := r.held + 1 }, []) else stop
  | .times count round s, r => timesRun room (fun s => exec fuel (round s)) count fuel 1#32 s r
  | .loop round s, r => loopRun (fun s => exec fuel (round s)) fuel s r

/-! ### The ideal -/

def timesIdealNext (rest : σ → Cursor → Outcome ((List α × Bool) × Cursor)) :
    Option (α × σ) → Cursor → Outcome ((List α × Bool) × Cursor)
  | none, c => done (([], true), c)
  | some (x, s), c =>
    if c.held < room then
      rest s { c with held := c.held + 1 } >>= fun rest => done ((x :: rest.1.1, rest.1.2), rest.2)
    else stop

/-- `n` rounds. -/
def timesIdeal (run : σ → Cursor → Outcome (Option (α × σ) × Cursor)) :
    Nat → σ → Cursor → Outcome ((List α × Bool) × Cursor)
  | 0, _, c => done (([], false), c)
  | n + 1, s, c => run s c >>= fun next => timesIdealNext room (timesIdeal run n) next.1 next.2

def loopIdealNext (rest : σ → Cursor → Outcome (ρ × Cursor)) : σ ⊕ ρ → Cursor → Outcome (ρ × Cursor)
  | .inl s, c => rest s c
  | .inr b, c => done (b, c)

def loopIdeal (run : σ → Cursor → Outcome ((σ ⊕ ρ) × Cursor)) : Nat → σ → Cursor → Outcome (ρ × Cursor)
  | 0, _, _ => outOfFuel
  | n + 1, s, c => run s c >>= fun next => loopIdealNext (loopIdeal run n) next.1 next.2

/-- A run of the ideal.  It stops where it refuses. -/
def ideal {α : Type} : Reading α → Cursor → Outcome (α × Cursor)
  | .ret a, c => done (a, c)
  | .seq p f, c => ideal p c >>= fun x => ideal (f x.1) x.2
  | .read, c =>
    if c.pos < i.len.toNat then
      done ((i.byteAt (BitVec.ofNat 32 c.pos)).setWidth 32, { c with pos := c.pos + 1 })
    else stop
  | .pos, c => done (BitVec.ofNat 32 c.pos, c)
  | .failed, c => done (c.failed, c)
  | .report _ _, c => done ((), { c with failed := true })
  | .forget, c => done ((), { c with failed := false })
  -- a length is a natural number, and ends at a word that is not negative
  | .skip n, c => if c.pos + n.toNat < 2 ^ 31 then done ((), { c with pos := c.pos + n.toNat }) else stop
  -- what was read ends by the place
  | .seek place, c =>
    if c.pos ≤ place.toNat ∧ place.toNat < 2 ^ 31 then done ((), { c with pos := place.toNat }) else stop
  | .hold, c => if c.held < room then done ((), { c with held := c.held + 1 }) else stop
  | .times count round s, c => timesIdeal room (fun s => ideal (round s)) count.toInt.toNat s c
  | .loop round s, c => loopIdeal (fun s => ideal (round s)) (i.len.toNat + 1) s c

end Reading

end Aipl.Lib
