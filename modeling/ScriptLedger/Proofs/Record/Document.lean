import ScriptLedger.Account.Basic
import ScriptLedger.Block.Header
import ScriptLedger.Proofs.Json.RoundTrip
import ScriptLedger.Transaction.Signed

/-!
# Documents are read as what they were written from

A record is sent as a document, in which the members of an object are sorted by key; it is
read by the names of its fields, in the order in which they are declared.  These are two
different orders, and a field that was written under a wrong name, or twice, would not be
read at all.

With the text of a document, which is read back as the document, this makes the text of a
record a name of it that no other record has.

## Main results

* `Transaction.ofJson?_toJson`, `BlockHeader.ofJson?_toJson`, `Account.ofJson?_toJson` — reading
  undoes writing.
* `Record.text_inj` — the text of a record tells the record.
-/

namespace ScriptLedger

namespace Json

variable {α : Type}

@[simp] theorem uint64?_ofUInt64 (w : UInt64) : (ofUInt64 w).uint64? = some w :=
  Word.unsigned?_eq_some_iff.mpr rfl

@[simp] theorem int64?_ofInt64 (w : Int64) : (ofInt64 w).int64? = some w :=
  Word.signed?_eq_some_iff.mpr rfl

@[simp] theorem blob?_ofBlob {k : Kind} (b : Blob k) : (ofBlob b).blob? k = some b := by
  simp [ofBlob, blob?, Except.toOption]

/-- A list is read item by item, as it was written. -/
theorem list?_array {read? : Json → Option α} {write : α → Json}
    (h : ∀ x, read? (write x) = some x) (l : List α) :
    (array (l.map write)).list? read? = some l := by
  rw [list?, List.mapM_map]
  induction l with
  | nil => rfl
  | cons x l ih =>
      rw [List.mapM_cons, ih, Function.comp_apply, h]
      rfl

theorem writable_ofUInt64 (w : UInt64) : (ofUInt64 w).Writable := by
  have hlt := w.toNat_lt_size
  exact .int (by omega) (by omega)

theorem writable_ofInt64 (w : Int64) : (ofInt64 w).Writable := by
  have hlow := w.le_toInt
  have hhigh := w.toInt_lt
  have hsize : UInt64.size = 2 ^ 64 := rfl
  exact .int (by omega) (by omega)

theorem writable_ofBlob {k : Kind} (b : Blob k) : (ofBlob b).Writable := .text b.toHex

end Json

/-! ## Transactions and headers -/

@[simp] theorem Input.ofJson?_toJson (input : Input) : ofJson? input.toJson = some input := by
  simp [ofJson?, toJson, Json.required?, Json.fields?, Json.single?]

@[simp] theorem Output.ofJson?_toJson (output : Output) :
    ofJson? output.toJson = some output := by
  simp [ofJson?, toJson, Json.required?, Json.fields?, Json.single?, Json.text?]

@[simp] theorem TransactionData.ofJson?_toJson (data : TransactionData) :
    ofJson? data.toJson = some data := by
  simp [ofJson?, toJson, fieldNames, Json.required?, Json.fields?, Json.single?,
    Json.list?_array Input.ofJson?_toJson, Json.list?_array Output.ofJson?_toJson]

@[simp] theorem Transaction.ofJson?_toJson (tx : Transaction) : ofJson? tx.toJson = some tx := by
  simp [ofJson?, toJson, Json.required?, Json.fields?, Json.single?,
    Json.list?_array (Json.blob?_ofBlob (k := .signature))]

@[simp] theorem SkeletonHeader.ofJson?_toJson (header : SkeletonHeader) :
    ofJson? header.toJson = some header := by
  simp [ofJson?, toJson, fieldNames, Json.required?, Json.fields?, Json.single?]

@[simp] theorem BlockHeader.ofJson?_toJson (header : BlockHeader) :
    ofJson? header.toJson = some header := by
  simp [ofJson?, toJson, Json.required?, Json.fields?, Json.single?]

/-! ## Accounts -/

@[simp] theorem SlotType.ofTag?_tag (type : SlotType) : ofTag? type.tag = some type := by
  cases type with
  | int => rfl
  | str => rfl
  | bytes kind => cases kind <;> rfl

@[simp] theorem SlotValue.ofJson?_toJson (value : SlotValue) :
    ofJson? value.type value.toJson = some value := by
  cases value with
  | int value => simp [ofJson?, type, toJson]
  | str value => rfl
  | bytes kind value => simp [ofJson?, type, toJson]

@[simp] theorem Slot.ofJson?_toJson (slot : Slot) : ofJson? slot.toJson = some slot := by
  simp [ofJson?, toJson, fieldNames, Json.required?, Json.fields?, Json.single?, Json.text?,
    Json.case?]

@[simp] theorem Account.ofJson?_toJson (account : Account) :
    ofJson? account.toJson = some account := by
  simp [ofJson?, toJson, fieldNames, Json.required?, Json.fields?, Json.single?, Json.text?,
    Json.bool?, Json.list?_array Slot.ofJson?_toJson]

theorem SlotValue.writable_toJson (value : SlotValue) : value.toJson.Writable := by
  cases value with
  | int value => exact Json.writable_ofInt64 value
  | str value => exact .text value
  | bytes kind value => exact Json.writable_ofBlob value

theorem Slot.writable_toJson (slot : Slot) : slot.toJson.Writable := by
  refine .object ?_
  simp only [List.forall_mem_cons]
  exact ⟨.text _, .text _, slot.value.writable_toJson, nofun⟩

theorem Account.writable_toJson (account : Account) : account.toJson.Writable := by
  have hstorage : (Json.array (account.storage.map Slot.toJson)).Writable := by
    refine .array ?_
    simp only [List.forall_mem_map]
    exact fun slot _ => slot.writable_toJson
  refine .object ?_
  simp only [List.forall_mem_cons]
  exact ⟨Json.writable_ofUInt64 _, .text _, .bool _, Json.writable_ofBlob _, hstorage, nofun⟩

/-! ## Texts -/

/-- The documents of these records can be written, and each is read as the record that it
was made of. -/
class LawfulRecord (α : Type) [Record α] : Prop where
  writable (x : α) : (Record.toJson x).Writable
  ofJson?_toJson (x : α) : Record.ofJson? (Record.toJson x) = some x

instance : LawfulRecord Account where
  writable := Account.writable_toJson
  ofJson?_toJson := Account.ofJson?_toJson

/-- The text of a record tells the record. -/
theorem Record.text_inj {α : Type} [Record α] [LawfulRecord α] {x y : α} (h : text x = text y) :
    x = y := by
  have hdocument := Json.print_inj (LawfulRecord.writable x) (LawfulRecord.writable y) h
  have hread := LawfulRecord.ofJson?_toJson x
  rw [hdocument, LawfulRecord.ofJson?_toJson y] at hread
  exact (Option.some.inj hread).symm

end ScriptLedger
