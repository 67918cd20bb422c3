import FeedBench.L2
import FeedBench.Lib.Framing
import FeedBench.Ws.Wire

/-!
# The structure of L2 messages

What `signed_txs` walks, as a tree, and the bytes of it: the kind, then the body, and in a
batch each sub-message behind its 8-byte big-endian length.
-/

namespace FeedBench.L2

open Lib Ws

/-- The longest entry that a batch is walked past. -/
def maxEntry : Nat := 16 * 2 ^ 20

def be8 : LengthCode UInt8 where
  width := 8
  bound := 2 ^ 64
  write := beBytes 8
  read := beNat
  width_pos := by decide
  length_write := length_beBytes 8
  read_write n h := beNat_beBytes (by omega)

inductive Tree where
  | signedTx (raw : List UInt8)
  | batch (subs : List Tree)
  | other (kind : UInt8) (body : List UInt8)
      (unknown : kind ≠ kindSignedTx ∧ kind ≠ kindBatch)
  | empty

namespace Tree

def isBatch : Tree → Bool
  | batch _ => true
  | _ => false

/-! ## Bytes -/

mutual

def encode : Tree → List UInt8
  | signedTx raw => kindSignedTx :: raw
  | batch subs => kindBatch :: encodeAll subs
  | other kind body _ => kind :: body
  | empty => []

def encodeAll : List Tree → List UInt8
  | [] => []
  | t :: ts => be8.entry (encode t) ++ encodeAll ts

end

mutual

def Fits : Tree → Prop
  | batch subs => AllFit subs
  | _ => True

def AllFit : List Tree → Prop
  | [] => True
  | t :: ts => (encode t).length ≤ maxEntry ∧ Fits t ∧ AllFit ts

end

/-! ## Transactions -/

mutual

def txs : Tree → List (List UInt8)
  | signedTx raw => if raw = [] then [] else [raw]
  | batch subs => txsOf subs
  | other .. | empty => []

def txsOf : List Tree → List (List UInt8)
  | [] => []
  | t :: ts => txs t ++ txsOf ts

end

mutual

/-- The tree without the batches that lie below five enclosing ones, inside `enclosing`
batches. -/
def prune (enclosing : Nat) : Tree → Tree
  | batch subs => batch (pruneAll (enclosing + 1) subs)
  | t => t

def pruneAll (enclosing : Nat) : List Tree → List Tree
  | [] => []
  | t :: ts =>
      if t.isBatch ∧ 5 ≤ enclosing then pruneAll enclosing ts
      else prune enclosing t :: pruneAll enclosing ts

end

/-! ## Entries that carry nothing -/

/-- An entry that holds no transaction: a batch too deep to be entered, an empty entry, an
unknown kind or a transaction without bytes. -/
def Void (enclosing : Nat) (t : Tree) : Prop :=
  match t with
  | batch _ => 5 ≤ enclosing
  | other .. | empty => True
  | signedTx raw => raw = []

mutual

/-- `Thinned enclosing t t'`: the tree `t'` is `t` with some void entries removed, anywhere. -/
inductive Thinned : Nat → Tree → Tree → Prop where
  | same (enclosing t) : Thinned enclosing t t
  | batch {enclosing ts ts'} (h : AllThinned (enclosing + 1) ts ts') :
      Thinned enclosing (batch ts) (batch ts')

inductive AllThinned : Nat → List Tree → List Tree → Prop where
  | nil (enclosing) : AllThinned enclosing [] []
  | keep {enclosing t t' ts ts'} (h : Thinned enclosing t t') (hs : AllThinned enclosing ts ts') :
      AllThinned enclosing (t :: ts) (t' :: ts')
  | drop {enclosing t ts ts'} (h : Void enclosing t) (hs : AllThinned enclosing ts ts') :
      AllThinned enclosing (t :: ts) ts'

end

end Tree

end FeedBench.L2
