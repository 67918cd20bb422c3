import FeedBench.Lib.Rlp

/-!
# Signed transactions

What `eth_sendRawTransaction` takes: a typed envelope, which is a type byte and an RLP list,
or a legacy RLP list.
-/

namespace FeedBench

open Lib

/-- What stands before the payload of a signed transaction. -/
structure TxHeader where
  /-- The type byte, unless the transaction is a legacy one. -/
  type : Option UInt8
  type_small : ∀ b ∈ type, b.toNat < 0x80
  header : Rlp.Header
  is_list : header.isList = true

namespace TxHeader

def legacy (header : Rlp.Header) (is_list : header.isList = true) : TxHeader where
  type := none
  type_small _ h := by cases h
  header := header
  is_list := is_list

def dynamicFee (header : Rlp.Header) (is_list : header.isList = true) : TxHeader where
  type := some 2
  type_small _ h := by cases h; decide
  header := header
  is_list := is_list

def bytes (h : TxHeader) : List UInt8 := h.type.toList ++ h.header.bytes

def declared (h : TxHeader) : Nat := h.type.toList.length + h.header.itemLen

theorem declared_legacy (h : TxHeader) (htype : h.type = none) :
    h.declared = h.header.itemLen := by
  rw [declared, htype]
  exact Nat.zero_add _

theorem declared_typed (h : TxHeader) {b : UInt8} (htype : h.type = some b) :
    h.declared = 1 + h.header.itemLen := by
  rw [declared, htype]
  rfl

theorem declared_eq (h : TxHeader) : h.declared = h.bytes.length + h.header.payload := by
  rw [declared, bytes, Rlp.Header.itemLen, List.length_append, Nat.add_assoc]

end TxHeader

/-- A signed transaction, exactly as long as its header declares. -/
structure SignedTx where
  front : TxHeader
  payload : List UInt8
  complete : payload.length = front.header.payload

namespace SignedTx

def bytes (tx : SignedTx) : List UInt8 := tx.front.bytes ++ tx.payload

@[simp] theorem length_bytes (tx : SignedTx) : tx.bytes.length = tx.front.declared := by
  rw [bytes, List.length_append, tx.complete, TxHeader.declared_eq]

theorem exists_of_front {h : TxHeader} {b : List UInt8} (hb : h.bytes <+: b)
    (hlen : h.declared ≤ b.length) : ∃ tx : SignedTx, tx.bytes = b.take h.declared := by
  obtain ⟨rest, rfl⟩ := hb
  rw [h.declared_eq, List.length_append] at hlen
  have hpayload : (rest.take h.header.payload).length = h.header.payload := by
    rw [List.length_take, Nat.min_eq_left (by omega)]
  refine ⟨⟨h, rest.take h.header.payload, hpayload⟩, ?_⟩
  rw [bytes, h.declared_eq, List.take_length_add_append]

theorem front_prefix (tx : SignedTx) : tx.front.bytes <+: tx.bytes := List.prefix_append _ _

end SignedTx

end FeedBench
