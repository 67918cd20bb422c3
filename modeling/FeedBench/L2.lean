import FeedBench.Ws.Frame

/-!
# L2 messages

`l2.rs`.  The first byte of a message is its kind.  A batch is a list of entries, each an
8-byte big-endian length and a message of that length, and the walk of a batch ends at the
first entry that is too long or not all there.
-/

namespace FeedBench.L2

def kindBatch : UInt8 := 3
def kindSignedTx : UInt8 := 4

def entries (walk : List UInt8 → List (List UInt8)) (l2 : List UInt8) (pos : Nat) :
    List (List UInt8) :=
  if pos + 8 ≤ l2.length then
    let n := Ws.beNat ((l2.drop pos).take 8)
    if 16 * 2 ^ 20 < n ∨ l2.length < pos + 8 + n then []
    else walk ((l2.drop (pos + 8)).take n) ++ entries walk l2 (pos + 8 + n)
  else []
termination_by l2.length - pos

/-- `walk` at the depth `5 - levels`: so many more batches may be entered. -/
def walk (levels : Nat) (l2 : List UInt8) : List (List UInt8) :=
  match l2 with
  | [] => []
  | kind :: body =>
      if kind = kindSignedTx then if 1 < l2.length then [body] else []
      else if kind = kindBatch then
        match levels with
        | 0 => []
        | levels + 1 => entries (walk levels) l2 1
      else []

/-- Every signed transaction carried by an L2 message, in order. -/
def signedTxs (l2 : List UInt8) : List (List UInt8) := walk 5 l2

end FeedBench.L2
