import ScriptLedger.Proofs.Record.Document
import ScriptLedger.Proofs.Sequencing

/-!
# Texts of records are canonical

A text that is read may have its members in any order, hold members that are no field, write
its digits in capitals or be spaced out; it is read as a record all the same, and that record
has one text of its own.  Whoever reads that text is back at the same record, so what was once
read can be kept, sent on and named without changing under way.

Reading checks the rules and writing does not: exactly the records that follow their rules are
read back from their texts.

## Main results

* `Record.read_text` — what comes of reading the text of a record.
* `Record.canonical` — the texts of all five kinds of records are canonical.
-/

namespace ScriptLedger

open Sequencing

/-! ## Documents that can be written -/

theorem Input.writable_toJson (input : Input) : input.toJson.Writable := by
  refine .object ?_
  simp only [List.forall_mem_cons]
  exact ⟨Json.writable_ofBlob _, Json.writable_ofUInt64 _, nofun⟩

theorem Output.writable_toJson (output : Output) : output.toJson.Writable := by
  refine .object ?_
  simp only [List.forall_mem_cons]
  exact ⟨Json.writable_ofBlob _, .text _, Json.writable_ofUInt64 _, nofun⟩

theorem TransactionData.writable_toJson (data : TransactionData) : data.toJson.Writable := by
  have hinputs : (Json.array (data.inputs.map Input.toJson)).Writable := by
    refine .array ?_
    simp only [List.forall_mem_map]
    exact fun input _ => input.writable_toJson
  have houtputs : (Json.array (data.outputs.map Output.toJson)).Writable := by
    refine .array ?_
    simp only [List.forall_mem_map]
    exact fun output _ => output.writable_toJson
  refine .object ?_
  simp only [List.forall_mem_cons]
  exact ⟨Json.writable_ofUInt64 _, hinputs, Json.writable_ofBlob _, houtputs, nofun⟩

theorem Transaction.writable_toJson (tx : Transaction) : tx.toJson.Writable := by
  have hsignatures : (Json.array (tx.signatures.map Json.ofBlob)).Writable := by
    refine .array ?_
    simp only [List.forall_mem_map]
    exact fun signature _ => Json.writable_ofBlob signature
  refine .object ?_
  simp only [List.forall_mem_cons]
  exact ⟨hsignatures, tx.data.writable_toJson, nofun⟩

theorem SkeletonHeader.writable_toJson (header : SkeletonHeader) : header.toJson.Writable := by
  refine .object ?_
  simp only [List.forall_mem_cons]
  exact ⟨Json.writable_ofUInt64 _, Json.writable_ofUInt64 _, Json.writable_ofUInt64 _,
    Json.writable_ofBlob _, Json.writable_ofBlob _, Json.writable_ofBlob _,
    Json.writable_ofUInt64 _, Json.writable_ofBlob _, nofun⟩

theorem BlockHeader.writable_toJson (header : BlockHeader) : header.toJson.Writable := by
  refine .object ?_
  simp only [List.forall_mem_cons]
  exact ⟨Json.writable_ofBlob _, header.skeleton.writable_toJson, nofun⟩

instance : LawfulRecord TransactionData where
  writable := TransactionData.writable_toJson
  ofJson?_toJson := TransactionData.ofJson?_toJson

instance : LawfulRecord Transaction where
  writable := Transaction.writable_toJson
  ofJson?_toJson := Transaction.ofJson?_toJson

instance : LawfulRecord SkeletonHeader where
  writable := SkeletonHeader.writable_toJson
  ofJson?_toJson := SkeletonHeader.ofJson?_toJson

instance : LawfulRecord BlockHeader where
  writable := BlockHeader.writable_toJson
  ofJson?_toJson := BlockHeader.ofJson?_toJson

/-! ## Reading -/

namespace Record

variable {α : Type} [Record α]

/-- A record that was read follows the rules, whatever its text was like. -/
theorem validate_of_read {s : String} {x : α} (h : read α s = .ok x) : validate x = .ok () := by
  unfold read at h
  cases hdocument : (Json.parse? s).bind (ofJson? : Json → Option α) with
  | none =>
      rw [hdocument] at h
      cases h
  | some y =>
      rw [hdocument] at h
      obtain ⟨_, hvalid, rfl⟩ := except_map_eq_ok.mp h
      exact hvalid

/-- The text of a record is read as the record, if that follows the rules. -/
theorem read_text [LawfulRecord α] (x : α) : read α (text x) = (validate x).map fun _ => x := by
  unfold read text
  rw [Json.parse?_print (LawfulRecord.writable x), Option.bind_some,
    LawfulRecord.ofJson?_toJson x]

theorem read_text_eq_ok_iff [LawfulRecord α] {x : α} :
    read α (text x) = .ok x ↔ validate x = .ok () := by
  rw [read_text, except_map_eq_ok]
  constructor
  · rintro ⟨⟨⟩, hvalid, -⟩
    exact hvalid
  · intro hvalid
    exact ⟨(), hvalid, rfl⟩

/-- The records of a type survive their texts. -/
structure Canonical (α : Type) [Record α] : Prop where
  /-- A record that follows the rules is read back from its text. -/
  read_text : ∀ x : α, validate x = .ok () → read α (text x) = .ok x
  /-- A text tells the record it was written for. -/
  text_inj : ∀ x y : α, validate x = .ok () → validate y = .ok () → text x = text y → x = y
  /-- What is read from any text follows the rules, and to write it, read that and write it
  again gives the same text. -/
  text_read : ∀ (s : String) (x : α), read α s = .ok x →
    validate x = .ok () ∧ (read α (text x)).map text = .ok (text x)

theorem canonical_of_lawful [LawfulRecord α] : Canonical α where
  read_text x := read_text_eq_ok_iff.mpr
  text_inj x y _ _ := text_inj
  text_read s x h := by
    have hvalid := validate_of_read h
    refine ⟨hvalid, ?_⟩
    rw [read_text_eq_ok_iff.mpr hvalid]
    rfl

/-- The texts of accounts, transactions and headers are canonical. -/
theorem canonical : Canonical Account ∧ Canonical TransactionData ∧ Canonical Transaction ∧
    Canonical SkeletonHeader ∧ Canonical BlockHeader :=
  ⟨canonical_of_lawful, canonical_of_lawful, canonical_of_lawful, canonical_of_lawful,
    canonical_of_lawful⟩

end Record

end ScriptLedger
