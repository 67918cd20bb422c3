import FeedBench.Usize

/-!
# Frames of raw transactions

`rlp_item_len`, `tx_len` and `split_txs` of `wsraw.rs`.  The additions on declared lengths
are those of the profile (`add`).  Positions stay inside the frame, which is a slice, so
theirs cannot overflow.
-/

namespace FeedBench.WsRaw

open Usize

def be (b : List UInt8) : Option Nat :=
  if b.isEmpty || 8 < b.length then none
  else some (b.foldl (fun acc x => (acc <<< 8) % 2 ^ 64 ||| x.toNat) 0)

variable {m : Type → Type} [Monad m] (add : Nat → Nat → m Nat)

def longItemLen (ll : Nat) (b : List UInt8) : m (Option Nat) := do
  let stop ← add 1 ll
  match (slice b 1 stop).bind be with
  | none => return none
  | some n => return some (← add stop n)

/-- Length of the RLP item at the start of `b`, header included. -/
def rlpItemLen (b : List UInt8) : m (Option Nat) :=
  match b with
  | [] => return none
  | b0 :: _ =>
      let b0 := b0.toNat
      if b0 ≤ 0x7F then return some 1
      else if b0 ≤ 0xB7 then return some (← add 1 (b0 - 0x80))
      else if b0 ≤ 0xBF then longItemLen add (b0 - 0xB7) b
      else if b0 ≤ 0xF7 then return some (← add 1 (b0 - 0xC0))
      else longItemLen add (b0 - 0xF7) b

/-- Length of one signed transaction at the start of `b`, `none` when `b` cannot start one. -/
def txLen (b : List UInt8) : m (Option Nat) :=
  match b with
  | [] => return none
  | b0 :: body =>
      if b0 < 0x80 then
        match body with
        | [] => return none
        | b1 :: _ =>
            if b1 < 0xC0 then return none
            else do
              match ← rlpItemLen add body with
              | none => return none
              | some n => return some (← add 1 n)
      else if 0xC0 ≤ b0 then rlpItemLen add b
      else return none

/-- The loop of `split_txs` for one prefix, `none` when the frame is not a run of transactions
with that prefix. -/
def splitLoop (pfx : Nat) (frame : List UInt8) (pos : Nat) (out : List (List UInt8)) :
    m (Option (List (List UInt8))) :=
  if pos < frame.length then
    if frame.length < pos + pfx then return none
    else do
      let rest := frame.drop (pos + pfx)
      match ← txLen add rest with
      | none => return none
      | some n =>
          if 0 < pfx ∧ be ((frame.drop pos).take pfx) ≠ some n then return none
          else if rest.length < n then return none
          else if n < 8 then return none
          else splitLoop pfx frame (pos + (pfx + n)) (out ++ [rest.take n])
  else return some out
termination_by frame.length - pos

def splitFrom (frame : List UInt8) : List Nat → m (List (List UInt8))
  | [] => return []
  | pfx :: pfxs => do
      match ← splitLoop add pfx frame 0 [] with
      | some out => if out.isEmpty then splitFrom frame pfxs else return out
      | none => splitFrom frame pfxs

def prefixes : List Nat := [0, 4, 8]

def splitTxs (frame : List UInt8) : m (List (List UInt8)) := splitFrom add frame prefixes

end FeedBench.WsRaw
