import FeedBench.L2
import FeedBench.Usize

/-!
# The walk by machine indices

`walk` of `l2.rs` with every addition and every slice checked, returning the places of the
transactions in the input.  `none` is a panic: an addition that overflows or a slice out of
range.
-/

namespace FeedBench.L2

open Usize

structure Span where
  start : Nat
  len : Nat
  deriving DecidableEq

def Span.bytes (all : List UInt8) (p : Span) : List UInt8 := (all.drop p.start).take p.len

def entriesChecked (walk : Nat → List UInt8 → Option (List Span)) (base : Nat)
    (l2 : List UInt8) (pos : Nat) : Option (List Span) :=
  match _hbody : checkedAdd pos 8 with
  | none => none
  | some body =>
      if body ≤ l2.length then
        match slice l2 pos body with
        | none => none
        | some field =>
            let n := Ws.beNat field
            if 16 * 2 ^ 20 < n then some []
            else
              match _hstop : checkedAdd body n with
              | none => none
              | some stop =>
                  if l2.length < stop then some []
                  else
                    match slice l2 body stop with
                    | none => none
                    | some sub => do
                        let here ← walk (base + body) sub
                        let rest ← entriesChecked walk base l2 stop
                        return here ++ rest
      else some []
termination_by l2.length - pos
decreasing_by
  unfold checkedAdd at _hbody _hstop
  split at _hbody <;> cases _hbody
  split at _hstop <;> cases _hstop
  omega

def walkChecked (depth base : Nat) (l2 : List UInt8) : Option (List Span) :=
  match l2 with
  | [] => some []
  | kind :: _ =>
      if kind = kindSignedTx then
        if 1 < l2.length then
          (slice l2 1 l2.length).map fun raw => [⟨base + 1, raw.length⟩]
        else some []
      else if kind = kindBatch then
        if 4 < depth then some []
        else
          entriesChecked (fun base sub =>
            if depth + 1 < 2 ^ 8 then walkChecked (depth + 1) base sub else none) base l2 1
      else some []
termination_by 5 - depth

/-- `signed_txs`, by the places of what it returns. -/
def signedTxsChecked (l2 : List UInt8) : Option (List Span) := walkChecked 0 0 l2

example : signedTxsChecked (3 :: [0, 0, 0, 0, 0, 0, 0, 2, 4, 9] ++
    [0, 0, 0, 0, 0, 0, 0, 3, 4, 8, 7]) = some [⟨10, 1⟩, ⟨20, 2⟩] := by decide +kernel

end FeedBench.L2
