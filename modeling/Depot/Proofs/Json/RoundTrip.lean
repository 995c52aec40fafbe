import Depot.Json.Decode
import Depot.Json.Text
import Depot.Proofs.Json.Scalar

/-!
# What is written as JSON is read back

The text of a record is an object with the fields in their order, and reading folds over the members
of an object. So what a record reads is known field by field: each member has to be one that the
record still takes, and its value has to be read as it is written. `Takes` follows the fields of a
text through the states of the reader, `membersFrom_takes` makes one fold of it.

The values of the fields are strings, numbers and records again, each read as written whatever comes
behind (`Reads`); a number needs that this is not a digit, and behind a field comes a comma or a
brace.

`json_roundTrip` says that resources and settings are read back, whatever their strings and numbers
are, and hence that different ones have different texts.

The records are `Resource` and `StorageConfig`, written compactly and read whole. Out of scope:
texts that nobody has written so; `Depot.Json.Reader` says what becomes of them.
-/

namespace Depot

namespace Json

variable {α σ : Type}

/-! ## Objects field by field -/

/-- The text is read as the value, unless it goes on as a number. -/
def Reads (read : Reader α) (text : List Char) (a : α) : Prop :=
  ∀ rest, EndsNumber rest → read (text ++ rest) = .ok (a, rest)

theorem reads_quote (s : String) : Reads stringValue (quote s) s :=
  fun rest _ => stringValue_quote s rest

theorem reads_digits (n : UInt64) : Reads naturalValue (digits n.toNat) n := fun rest hrest => by
  rw [naturalValue_digits n.toNat_lt hrest, UInt64.ofNat_toNat]

/-- The fields of an object up to its end, with a comma in front if others came before. -/
def fieldsFrom (first : Bool) : List (String × List Char) → List Char
  | [] => ['\x7d']
  | f :: fs => if first then fields (f :: fs) else ',' :: fields (f :: fs)

theorem fields_eq (fs : List (String × List Char)) : fields fs = fieldsFrom true fs := by
  cases fs <;> rfl

theorem fields_cons (name : String) (value : List Char) (fs : List (String × List Char)) :
    fields ((name, value) :: fs) = quote name ++ ':' :: (value ++ fieldsFrom false fs) := by
  cases fs with
  | nil => simp [fields, fieldsFrom]
  | cons f fs => simp [fields, fieldsFrom]

theorem length_lt_fieldsFrom (first : Bool) (fs : List (String × List Char)) :
    fs.length < (fieldsFrom first fs).length := by
  induction fs generalizing first with
  | nil => exact Nat.one_pos
  | cons f fs ih =>
    obtain ⟨name, value⟩ := f
    have hrest := ih false
    have hfields : fs.length + 1 < (fields ((name, value) :: fs)).length := by
      rw [fields_cons]
      simp only [List.length_append, List.length_cons]
      omega
    cases first with
    | true => exact hfields
    | false => exact Nat.lt_succ_of_lt hfields

/-- A field ends with a comma or a brace. -/
theorem endsNumber_fieldsFrom (fs : List (String × List Char)) (rest : List Char) :
    EndsNumber (fieldsFrom false fs ++ rest) := by
  intro c hc
  cases fs with
  | nil =>
    obtain rfl : '\x7d' = c := by simpa [fieldsFrom] using hc
    decide
  | cons f fs =>
    obtain rfl : ',' = c := by simpa [fieldsFrom] using hc
    decide

/-- The fields are members that a record takes, from one state to another. -/
inductive Takes (step : Members σ) : List (String × List Char) → σ → σ → Prop
  | nil {s : σ} : Takes step [] s s
  | cons {name : String} {value : List Char} {fs : List (String × List Char)} {read : Reader σ}
      {s s₁ s' : σ} : step name s = .ok read → Reads read value s₁ → Takes step fs s₁ s' →
      Takes step ((name, value) :: fs) s s'

/-- A field that is a member of its own. -/
theorem Takes.member {step : Members σ} {name : String} {value : List Char}
    {fs : List (String × List Char)} {read : Reader α} {s s' : σ} {a : α} (put : α → σ)
    (hstep : step name s = Json.member none read put) (hread : Reads read value a)
    (hfs : Takes step fs (put a) s') : Takes step ((name, value) :: fs) s s' := by
  refine .cons hstep (fun rest hrest => ?_) hfs
  rw [hread rest hrest]
  rfl

theorem nextMember_fieldsFrom (first : Bool) (name : String) (value : List Char)
    (fs : List (String × List Char)) (rest : List Char) :
    nextMember first (fieldsFrom first ((name, value) :: fs) ++ rest) =
      .ok (some (name.toList.flatMap escape ++
        '"' :: ':' :: (value ++ (fieldsFrom false fs ++ rest)))) := by
  have htext : fields ((name, value) :: fs) ++ rest = '"' :: (name.toList.flatMap escape ++
      '"' :: ':' :: (value ++ (fieldsFrom false fs ++ rest))) := by
    rw [fields_cons, List.append_assoc, quote_append]
    simp
  cases first with
  | true => rw [fieldsFrom, if_pos rfl, htext]; rfl
  | false => rw [fieldsFrom, if_neg Bool.false_ne_true, List.cons_append, htext]; rfl

/-- The members of an object are read in turn, up to its end. -/
theorem membersFrom_takes {step : Members σ} {fs : List (String × List Char)} {s s' : σ}
    (h : Takes step fs s s') {fuel : Nat} (hfuel : fs.length < fuel) (first : Bool)
    (rest : List Char) :
    membersFrom step fuel first s (fieldsFrom first fs ++ rest) = .ok (s', '\x7d' :: rest) := by
  induction h generalizing fuel first with
  | nil =>
    obtain ⟨fuel, rfl⟩ := Nat.exists_eq_succ_of_ne_zero (Nat.ne_zero_of_lt hfuel)
    rfl
  | @cons name value fs read s s₁ s' hstep hread _ ih =>
    obtain ⟨fuel, rfl⟩ := Nat.exists_eq_succ_of_ne_zero (Nat.ne_zero_of_lt hfuel)
    rw [membersFrom, nextMember_fieldsFrom]
    change (stringBody _ >>= _) = _
    rw [stringBody_quote]
    change (step (String.ofList name.toList) s >>= _) = _
    rw [String.ofList_toList, hstep]
    change (read (value ++ (fieldsFrom false fs ++ rest)) >>= _) = _
    rw [hread _ (endsNumber_fieldsFrom fs rest)]
    exact ih (Nat.lt_of_succ_lt_succ hfuel) false

theorem objectMembers_fields {step : Members σ} {fs : List (String × List Char)} {s s' : σ}
    (h : Takes step fs s s') (rest : List Char) :
    objectMembers step s (fields fs ++ rest) = .ok (s', '\x7d' :: rest) := by
  have hfuel : fs.length < (fieldsFrom true fs ++ rest).length + 1 := by
    have hlength := length_lt_fieldsFrom true fs
    rw [List.length_append]
    omega
  rw [objectMembers, fields_eq]
  exact membersFrom_takes h hfuel true rest

/-- A record is read from an object by way of its members. -/
theorem reads_object {ofArray ofObject : Reader α} {fs : List (String × List Char)} {a : α}
    (h : ∀ rest, ofObject (fields fs ++ rest) = .ok (a, '\x7d' :: rest)) :
    Reads (record ofArray ofObject) (object fs) a := fun rest _ => by
  change (ofObject (fields fs ++ rest) >>= _) = _
  rw [h]
  rfl

/-- A value is read from a text of its own. -/
theorem whole_ofList {read : Reader α} {text : List Char} {a : α} (h : Reads read text a) :
    whole read (String.ofList text) = .ok a := by
  have hread : read text = .ok (a, []) := by
    simpa using h [] (by simp [EndsNumber])
  rw [whole, String.toList_ofList, hread]
  rfl

/-- What is read back is written in a way of its own. -/
theorem injective_of_read {write : α → String} {read : String → Except Problem α}
    (h : ∀ a, read (write a) = .ok a) : Function.Injective write := by
  intro a b hab
  have hread : (.ok a : Except Problem α) = .ok b :=
    calc
      .ok a = read (write a) := (h a).symm
      _ = read (write b) := congrArg read hab
      _ = .ok b := h b
  exact Except.ok.inj hread

end Json

open Json

/-! ## Resources -/

namespace Resource

theorem takes_fields (r : Resource) : Takes takeMember [("owner", quote r.owner),
    ("kind", quote r.kind), ("uuid", quote r.uuid), ("version", digits r.version.toNat)]
    ⟨none, none, none, none⟩ ⟨some r.owner, some r.kind, some r.uuid, some r.version⟩ := by
  refine .member (⟨some ·, none, none, none⟩) rfl (reads_quote r.owner) ?_
  refine .member (⟨some r.owner, some ·, none, none⟩) rfl (reads_quote r.kind) ?_
  refine .member (⟨some r.owner, some r.kind, some ·, none⟩) rfl (reads_quote r.uuid) ?_
  refine .member (⟨some r.owner, some r.kind, some r.uuid, some ·⟩) rfl
    (reads_digits r.version) ?_
  exact .nil

theorem ofJson_toJson (r : Resource) : ofJson r.toJson = .ok r := by
  refine whole_ofList (reads_object fun rest => ?_)
  rw [ofMembers, objectMembers_fields r.takes_fields]
  rfl

end Resource

/-! ## Lifetimes and settings -/

namespace Lifetime

/-- The nanoseconds of a lifetime make up no second, so nothing carries and nothing overflows. -/
theorem ofParts?_parts (t : Lifetime) : ofParts? t.seconds t.nanos = some t := by
  have hcarry : t.seconds.toNat + t.nanos / nanosPerSecond = t.seconds.toNat := by
    rw [Nat.div_eq_of_lt t.nanos.isLt, Nat.add_zero]
  have hrest : (t.nanos : Nat) % nanosPerSecond = t.nanos := Nat.mod_eq_of_lt t.nanos.isLt
  simp only [ofParts?, hcarry, hrest, if_pos t.seconds.toNat_lt, UInt64.ofNat_toNat]

theorem reads_nanos (n : Fin nanosPerSecond) : Reads nanosValue (digits n) n := fun rest hrest => by
  have hsmall : (n : Nat) < UInt32.size := Nat.lt_trans n.isLt (by decide)
  have hfits : (n : Nat) < UInt64.size := Nat.lt_trans hsmall (by decide)
  have hvalue : (UInt64.ofNat n).toNat = n := UInt64.toNat_ofNat_of_lt' hfits
  rw [nanosValue, naturalValue_digits hfits hrest]
  change (if (UInt64.ofNat n).toNat < UInt32.size then _ else _) = _
  rw [hvalue, if_pos hsmall]
  rfl

theorem takes_fields (t : Lifetime) : Takes takeMember
    [("secs", digits t.seconds.toNat), ("nanos", digits t.nanos)]
    ⟨none, none⟩ ⟨some t.seconds, some t.nanos⟩ := by
  refine .member (⟨some ·, none⟩) rfl (reads_digits t.seconds) ?_
  refine .member (⟨some t.seconds, some ·⟩) rfl (reads_nanos t.nanos) ?_
  exact .nil

theorem reads_json (t : Lifetime) : Reads value t.json t := by
  refine reads_object fun rest => ?_
  rw [ofMembers, objectMembers_fields t.takes_fields]
  change (ofRead t.seconds t.nanos >>= _) = _
  rw [ofRead, ofParts?_parts]
  rfl

end Lifetime

namespace Config

theorem takes_fields (c : Config) : Takes takeMember
    [("uri", quote c.uri), ("link_ttl", c.linkLifetime.json)]
    ⟨none, none⟩ ⟨some c.uri, some c.linkLifetime⟩ := by
  refine .member (⟨some ·, none⟩) rfl (reads_quote c.uri) ?_
  refine .member (⟨some c.uri, some ·⟩) rfl c.linkLifetime.reads_json ?_
  exact .nil

theorem ofJson_toJson (c : Config) : ofJson c.toJson = .ok c := by
  refine whole_ofList (reads_object fun rest => ?_)
  rw [ofMembers, objectMembers_fields c.takes_fields]
  rfl

end Config

/-- Resources and settings are read back from their texts; hence different ones have different
texts, and no text is that of a resource and of settings as well. -/
theorem json_roundTrip :
    (∀ r : Resource, Resource.ofJson r.toJson = .ok r) ∧
      (∀ c : Config, Config.ofJson c.toJson = .ok c) ∧
      Function.Injective Resource.toJson ∧ Function.Injective Config.toJson ∧
      ∀ (r : Resource) (c : Config), r.toJson ≠ c.toJson := by
  refine ⟨Resource.ofJson_toJson, Config.ofJson_toJson, injective_of_read Resource.ofJson_toJson,
    injective_of_read Config.ofJson_toJson, fun r c h => ?_⟩
  -- The names of the first fields differ in their first characters.
  have hname := congrArg (fun s : String => s.toList[2]?) h
  simp [Resource.toJson, Config.toJson, object, fields, quote, escape] at hname

end Depot
