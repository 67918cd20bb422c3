import FeedBench.Nitro.Proofs.Reconnect
import FeedBench.Ws.Proofs.Request

/-!
# The number a server reads

The cursor reaches the server as text: what it reads of the request of a turn is the number
after the greatest one emitted so far.
-/

namespace FeedBench.Nitro

open Ws Inflate Lib Text

variable {n : Nat} {codec : Codec} {args : Args n} {l l' : Locals} {v : Visit n}

theorem legalHeader_config {nextSeq : Option UInt64} :
    ∀ h ∈ (config args nextSeq).headers, LegalHeader (h.1.toList, h.2.toList) := by
  have hversion : LegalHeader ("Arbitrum-Feed-Client-Version".toList, "2".toList) :=
    Solid.legalHeader (by decide) (by decide) (by decide)
  have hsolid : Solid requestedHeader.toList := by decide
  have hcolon : ':' ∉ requestedHeader.toList := by decide
  refine List.forall_mem_cons.mpr ⟨hversion, ?_⟩
  exact List.forall_mem_map.mpr fun r _ =>
    Solid.legalHeader hsolid hcolon (solid_toString r.toNat)

theorem named_config {nextSeq : Option UInt64} {url : Url} {key : String} {u : Upgrade}
    (hu : u.headers = upgradeHeaders (config args nextSeq) url key) :
    u.named requestedHeader = nextSeq.toList.map fun r => (toString r.toNat).toList := by
  have hversion : eqIgnoreAsciiCase "Arbitrum-Feed-Client-Version".toList
      requestedHeader.toList = false := by decide
  have hself : eqIgnoreAsciiCase requestedHeader.toList requestedHeader.toList = true :=
    beq_self_eq_true _
  rw [Upgrade.named, hu, filter_upgradeHeaders (by decide), config, List.map_cons,
    List.filter_cons_of_neg (by rw [hversion]; exact Bool.false_ne_true)]
  cases nextSeq with
  | none => rfl
  | some r =>
      exact congrArg (List.map Prod.snd)
        (List.filter_cons_of_pos (a := (requestedHeader.toList, (toString r.toNat).toList)) hself)

/-- What a server reads of the request of a turn, with the number it is asked for. -/
structure Asks (request : List Char) (config : Config) (url : Url) (key : String)
    (number : Option Nat) : Prop where
  read : readUpgrade request =
    some ⟨"GET".toList, url.path, "HTTP/1.1".toList, upgradeHeaders config url key⟩
  asked : ∀ u ∈ readUpgrade request,
    (u.named requestedHeader).map (parseUnsigned (2 ^ 64)) = number.toList.map some

theorem asks_visit (h : Emits codec args l l' v) {url : Url}
    (hurl : parseUrl args.src.url = .ok url) (hsolid : Solid args.src.url) {key : String}
    (hkey : Solid key.toList) :
    Asks (request v.config url key).toList v.config url key
      (l.nextSeq.map UInt64.toNat) := by
  have hsendable : Sendable (config args l.nextSeq) url key :=
    Sendable.of_parseUrl hurl hsolid hkey legalHeader_config
  have hread := readUpgrade_request hsendable
  rw [h.config]
  refine ⟨hread, ?_⟩
  intro u hu
  rw [hread] at hu
  cases hu
  rw [named_config rfl]
  cases l.nextSeq with
  | none => rfl
  | some r => exact congrArg ([·]) (parseUnsigned_toString r.toNat_lt)

theorem cursor_eq (h : Emits codec args l l' v) {number : Option Nat}
    (hrequest : requested v = number.map toString) : l.nextSeq.map UInt64.toNat = number := by
  have hinj : Function.Injective (toString : Nat → String) := fun _ _ => toString_inj.mp
  apply Option.map_injective hinj
  rw [← hrequest, requested_eq h, Option.map_map]
  rfl

/-- On every connection of a run the server is asked for the number after the greatest one
emitted so far, and for none before the first. -/
theorem requests_read (codec : Codec) (args : Args n) (Z : Decompress) (attempts : List Attempt)
    (hbelow : ∀ v ∈ run codec args Z .start attempts, ∀ k ∈ v.emitted, k < 2 ^ 64 - 1)
    {url : Url} (hurl : parseUrl args.src.url = .ok url) (hsolid : Solid args.src.url) :
    Along (fun before v => ∀ key : String, Solid key.toList →
        Asks (request v.config url key).toList v.config url key
          (next (before.flatMap Visit.emitted)))
      (run codec args Z .start attempts) := by
  have hcursor := cursor_run [] hbelow rfl
  refine hcursor.mono ?_
  intro before v hv hrequest key hkey
  obtain ⟨l, l', hemits⟩ := mem_run hv
  have hnumber : l.nextSeq.map UInt64.toNat = next (before.flatMap Visit.emitted) :=
    cursor_eq hemits hrequest
  rw [← hnumber]
  exact asks_visit hemits hurl hsolid hkey

def feedUrl : Url := ⟨false, "feed".toList, 80, ['/']⟩

/-- The first connection asks for no number, the second one for 11. -/
theorem requests_read_replay :
    let visits := run feedCodec feedArgs Client.noDeflate .start replay
    visits.map (fun v => (readUpgrade (request v.config feedUrl "key").toList).map fun u =>
        u.named requestedHeader) = [some [], some ["11".toList]] ∧
      Along (fun before v => ∀ key : String, Solid key.toList →
        Asks (request v.config feedUrl key).toList v.config feedUrl key
          (next (before.flatMap Visit.emitted))) visits :=
  ⟨by decide +kernel, requests_read feedCodec feedArgs Client.noDeflate replay
    (emitted_below served_replay) (by decide) (by decide)⟩

end FeedBench.Nitro
