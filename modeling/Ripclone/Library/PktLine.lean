import Mathlib.Data.List.Basic
import Mathlib.Tactic.IntervalCases

/-!
# Packets behind a length

A stream of packets, each of its length in four hex digits, the digits included, and its payload.
Lengths too short for a payload are marks: `0000` ends a message and `0001` a part of one.
-/

namespace Ripclone.Library.PktLine

def hexDigit (n : Nat) : UInt8 := UInt8.ofNat (if n < 10 then 0x30 + n else 0x57 + n)

def fourHex (n : Nat) : List UInt8 :=
  [n / 4096 % 16, n / 256 % 16, n / 16 % 16, n % 16].map hexDigit

/-- A number in hex, of four digits at least. -/
def lengthHex (n : Nat) : List UInt8 :=
  if n < 65536 then fourHex n else (Nat.toDigits 16 n).map fun c => UInt8.ofNat c.toNat

/-- A packet with a payload. -/
def packet (payload : List UInt8) : List UInt8 := lengthHex (payload.length + 4) ++ payload

def hexValue (b : UInt8) : Option Nat :=
  if 0x30 ≤ b ∧ b ≤ 0x39 then some (b.toNat - 0x30)
  else if 0x41 ≤ b ∧ b ≤ 0x46 then some (b.toNat - 0x37)
  else if 0x61 ≤ b ∧ b ≤ 0x66 then some (b.toNat - 0x57)
  else none

/-- A number read from its hex digits, in either case and with a sign before them or none. -/
def parseHex (text : List UInt8) : Option Nat :=
  let digits := if text.head? = some 0x2b then text.tail else text
  if digits.isEmpty then none else digits.foldlM (fun n b => (hexValue b).map (16 * n + ·)) 0

theorem hexValue_hexDigit {n : Nat} (h : n < 16) : hexValue (hexDigit n) = some n := by
  interval_cases n <;> decide

theorem hexDigit_ne_sign {n : Nat} (h : n < 16) : hexDigit n ≠ 0x2b := by
  interval_cases n <;> decide

theorem parseHex_fourHex {n : Nat} (h : n < 65536) : parseHex (fourHex n) = some n := by
  have hdigits : parseHex (fourHex n) = (fourHex n).foldlM
      (fun n b => (hexValue b).map (16 * n + ·)) 0 := by
    simp [parseHex, fourHex, hexDigit_ne_sign (show n / 4096 % 16 < 16 by omega)]
  rw [hdigits, fourHex]
  simp only [List.map_cons, List.map_nil, List.foldlM_cons, List.foldlM_nil,
    hexValue_hexDigit (show n / 4096 % 16 < 16 by omega),
    hexValue_hexDigit (show n / 256 % 16 < 16 by omega),
    hexValue_hexDigit (show n / 16 % 16 < 16 by omega), hexValue_hexDigit (show n % 16 < 16 by omega),
    Option.map_some, Option.bind_eq_bind, Option.bind_some]
  show some _ = some n
  congr 1
  omega

theorem packet_eq {payload : List UInt8} (h : payload.length + 4 < 65536) :
    packet payload = fourHex (payload.length + 4) ++ payload := by
  rw [packet, lengthHex, if_pos h]

theorem length_fourHex (n : Nat) : (fourHex n).length = 4 := rfl

theorem length_packet {payload : List UInt8} (h : payload.length + 4 < 65536) :
    (packet payload).length = payload.length + 4 := by
  rw [packet_eq h, List.length_append, length_fourHex, Nat.add_comm]

/-- The first packet of a stream: its length in digits, and its bytes. -/
theorem take_packet {payload : List UInt8} (h : payload.length + 4 < 65536) (rest : List UInt8) :
    parseHex ((packet payload ++ rest).take 4) = some (payload.length + 4) ∧
      (packet payload ++ rest).take (payload.length + 4) = packet payload ∧
      (packet payload ++ rest).drop (payload.length + 4) = rest := by
  refine ⟨?_, ?_, ?_⟩
  · rw [packet_eq h, List.append_assoc, List.take_append_of_le_length (by rw [length_fourHex]),
      List.take_of_length_le (by rw [length_fourHex]), parseHex_fourHex h]
  · rw [← length_packet h, List.take_left]
  · rw [← length_packet h, List.drop_left]

theorem drop_packet {payload : List UInt8} (h : payload.length + 4 < 65536) :
    (packet payload).drop 4 = payload := by
  rw [packet_eq h]
  exact List.drop_left' (length_fourHex _)

/-! ## A stream of packets -/

inductive Pkt where
  | flush
  | delim
  | data (payload : List UInt8)
  deriving DecidableEq, Repr

/-- The packets of a stream, up to what is none. -/
def pkts (stream : List UInt8) : List Pkt :=
  match parseHex (stream.take 4) with
  | none => []
  | some 0 => if stream.length < 4 then [] else .flush :: pkts (stream.drop 4)
  | some 1 => if stream.length < 4 then [] else .delim :: pkts (stream.drop 4)
  | some len =>
    if len < 4 ∨ stream.length < len then []
    else .data ((stream.take len).drop 4) :: pkts (stream.drop len)
termination_by stream.length
decreasing_by all_goals simp only [List.length_drop]; omega

theorem pkts_packet {payload : List UInt8} (h : payload.length + 4 < 65536) (rest : List UInt8) :
    pkts (packet payload ++ rest) = .data payload :: pkts rest := by
  obtain ⟨hhex, htake, hdrop⟩ := take_packet h rest
  have hlen : (packet payload ++ rest).length = payload.length + 4 + rest.length := by
    rw [List.length_append, length_packet h]
  rw [pkts, hhex]
  split
  · next heq => cases heq
  · next heq => simp at heq
  · next heq => simp at heq
  · next len _ _ heq =>
      cases heq
      rw [if_neg (by omega), htake, hdrop, drop_packet h]

theorem pkts_flush (rest : List UInt8) : pkts (fourHex 0 ++ rest) = .flush :: pkts rest := by
  have hhex : parseHex ((fourHex 0 ++ rest).take 4) = some 0 := rfl
  rw [pkts, hhex]
  simp [length_fourHex]
  rfl

theorem pkts_delim (rest : List UInt8) : pkts (fourHex 1 ++ rest) = .delim :: pkts rest := by
  have hhex : parseHex ((fourHex 1 ++ rest).take 4) = some 1 := rfl
  rw [pkts, hhex]
  simp [length_fourHex]
  rfl

/-- A stream of payloads that fit is read back as those payloads. -/
theorem pkts_flatMap_packet {payloads : List (List UInt8)}
    (h : ∀ payload ∈ payloads, payload.length + 4 < 65536) (rest : List UInt8) :
    pkts (payloads.flatMap packet ++ rest) = payloads.map .data ++ pkts rest := by
  induction payloads with
  | nil => rfl
  | cons payload payloads ih =>
      rw [List.flatMap_cons, List.append_assoc, pkts_packet (h payload List.mem_cons_self),
        ih fun payload hmem => h payload (List.mem_cons_of_mem _ hmem)]
      rfl

end Ripclone.Library.PktLine
