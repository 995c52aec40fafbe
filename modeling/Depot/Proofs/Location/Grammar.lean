import Depot.Location
import Depot.Proofs.Text.Utf8
import Mathlib.Data.List.TakeWhile

/-!
# URIs of buckets

The URI of a bucket is put together from a scheme, the name of the bucket, a further path, and the
parameters of a query (`BucketUri.text`). The name ends at the first `/` or `?`, the query begins at
the first `?`, a parameter ends at `&`, and its key at its first `=`; each piece may hold any other
character.

A URI is cut at these places each time anew: the rest behind the scheme for the name, and the whole
URI for a parameter. Both cuts find the pieces (`bucketOf_append`, `queryValue?_text`).

Results:
* `ofUri_scheme`: what a URI with one of the schemes names.
* `ofUri_bucketUri`: **the pieces of the URI of a bucket are found**, the value of a parameter with
  the first parameter of that key.
* `ofUri_eq_error_iff`: a URI with one of the schemes is refused just if it names no bucket.

The two cuts are `parse_bucket` and `extract_query_param`, under `parse` of `StorageUri` (the
specification, section 10.4).
-/

namespace Depot.Location

open Text

/-! ## Pieces of a URI -/

/-- A service that has buckets, as the beginning of a URI names it. -/
inductive Scheme where
  | s3
  | gs
  | gcs
  deriving DecidableEq

/-- What a URI of the service begins with. -/
def Scheme.text : Scheme → String
  | .s3 => "s3://"
  | .gs => "gs://"
  | .gcs => "gcs://"

/-- A bucket of the service; only one of them has regions and endpoints. -/
def Scheme.locate (s : Scheme) (bucket : String) (region endpoint : Option String) : Location :=
  match s with
  | .s3 => .s3 bucket region endpoint
  | .gs | .gcs => .gcs bucket

/-- A parameter of a query, with or without a value. -/
structure Parameter where
  key : String
  value : Option String
  key_plain : ∀ c ∈ key.toList, c ≠ '=' ∧ c ≠ '&' ∧ c ≠ '?'
  value_plain : ∀ v ∈ value, ∀ c ∈ v.toList, c ≠ '&' ∧ c ≠ '?'

/-- A parameter as it is written. -/
def Parameter.text (p : Parameter) : String :=
  p.key ++ p.value.elim "" ("=" ++ ·)

/-- The pieces of the URI of a bucket. -/
structure BucketUri where
  scheme : Scheme
  bucket : String
  path : String
  query : Option (List Parameter)
  bucket_ne : bucket ≠ ""
  bucket_plain : ∀ c ∈ bucket.toList, c ≠ '/' ∧ c ≠ '?'
  path_rooted : ∀ c ∈ path.toList.head?, c = '/'
  path_plain : '?' ∉ path.toList

namespace BucketUri

/-- The query as it is written. -/
def queryText (u : BucketUri) : String :=
  u.query.elim "" fun ps => "?" ++ "&".intercalate (ps.map Parameter.text)

/-- The URI as it is written. -/
def text (u : BucketUri) : String :=
  u.scheme.text ++ (u.bucket ++ u.path ++ u.queryText)

/-- The value of the first parameter of a key. -/
def value? (u : BucketUri) (key : String) : Option String :=
  ((u.query.getD []).find? (·.key = key)).bind Parameter.value

/-- The bucket that the URI is of. -/
def location (u : BucketUri) : Location :=
  u.scheme.locate u.bucket (u.value? "region") (u.value? "endpoint")

end BucketUri

/-! ## The name of the bucket -/

/-- What ends the name of a bucket: nothing, a path or a query. -/
def EndsName (tail : List Char) : Prop :=
  ∀ c ∈ tail.head?, c = '/' ∨ c = '?'

theorem bucketOf_append (uri : String) {bucket : String} {tail : List Char} (hne : bucket ≠ "")
    (hplain : ∀ c ∈ bucket.toList, c ≠ '/' ∧ c ≠ '?') (hend : EndsName tail) :
    bucketOf uri (bucket.toList ++ tail) = .ok bucket := by
  have hname : (bucket.toList ++ tail).takeWhile (fun c => c != '?' && c != '/')
      = bucket.toList := by
    rw [List.takeWhile_append_of_pos fun c hc => by simp [hplain c hc]]
    cases tail with
    | nil => simp
    | cons c tail =>
      have hc : c = '/' ∨ c = '?' := hend c rfl
      rcases hc with rfl | rfl <;> simp
  obtain ⟨c, cs, hc⟩ := List.exists_cons_of_ne_nil fun h => hne (String.toList_eq_nil_iff.mp h)
  unfold bucketOf
  rw [hname, hc]
  exact congrArg Except.ok (String.toList_inj.mp (by rw [String.toList_ofList, hc]))

theorem bucketOf_eq_error_iff {uri : String} {rest : List Char} {e : StorageError} :
    bucketOf uri rest = .error e ↔ EndsName rest ∧ e = .config (.noBucket uri) := by
  unfold bucketOf EndsName
  cases rest with
  | nil => simp [eq_comm]
  | cons c cs =>
    by_cases hc : c = '/' ∨ c = '?'
    · rcases hc with rfl | rfl <;> simp [eq_comm]
    · have hgoes : (c != '?' && c != '/') = true := by simpa [not_or, and_comm] using hc
      simp [hgoes, hc]

/-! ## Parameters of the query -/

theorem parameter_text (p : Parameter) :
    parameter p.text.toList = (p.key.toList, p.value.map String.toList) := by
  have hkey : ∀ c ∈ p.key.toList, (c != '=') = true := fun c hc => by simp [p.key_plain c hc]
  unfold parameter Parameter.text
  cases p.value with
  | none =>
    have hend : p.key.toList.dropWhile (· != '=') = [] := List.dropWhile_eq_nil_iff.mpr hkey
    simp [hend]
  | some v =>
    simp [List.dropWhile_append_of_pos hkey, List.takeWhile_append_of_pos hkey]

/-- The first parameter of a key is the first one whose text has that key before its `=`. -/
theorem find?_parameter (ps : List Parameter) (key : String) :
    ((ps.map fun p => p.text.toList).map parameter).find? (·.1 = key.toList)
      = (ps.find? (·.key = key)).map fun p => (p.key.toList, p.value.map String.toList) := by
  rw [List.map_map, List.find?_map]
  have hsame : (fun kv => decide (kv.1 = key.toList)) ∘ parameter ∘ (fun p => p.text.toList)
      = fun p : Parameter => decide (p.key = key) := by
    funext p
    simp [parameter_text, String.toList_inj]
  rw [hsame]
  cases ps.find? (·.key = key) with
  | none => rfl
  | some p => simp [parameter_text]

theorem Parameter.text_plain (p : Parameter) : ∀ c ∈ p.text.toList, c ≠ '&' ∧ c ≠ '?' := by
  intro c hc
  unfold Parameter.text at hc
  rw [String.toList_append] at hc
  rcases List.mem_append.mp hc with hk | hv
  · exact (p.key_plain c hk).2
  · cases hvalue : p.value with
    | none => simp [hvalue] at hv
    | some v =>
      rw [hvalue, Option.elim_some, String.toList_append] at hv
      rcases List.mem_append.mp hv with he | hv
      · obtain rfl : c = '=' := by simpa using he
        decide
      · exact p.value_plain v hvalue c hv

/-- The parameters of a query, one behind the other. -/
def joined (ps : List Parameter) : List Char :=
  joinWith '&' (ps.map fun p => p.text.toList)

theorem toList_intercalate_text (ps : List Parameter) :
    ("&".intercalate (ps.map Parameter.text)).toList = joined ps := by
  rw [toList_intercalate '&' (by simp), List.map_map]
  rfl

theorem mark_not_mem_joined (ps : List Parameter) : '?' ∉ joined ps := by
  intro hm
  obtain h | ⟨run, hr, h⟩ := mem_joinWith hm
  · exact absurd h (by decide)
  · obtain ⟨p, -, rfl⟩ := List.mem_map.mp hr
    exact (p.text_plain '?' h).2 rfl

/-- The first parameter of a key is found in the query; a key is no empty text. -/
theorem find?_joined (ps : List Parameter) {key : String} (hkey : key ≠ "") :
    ((splitOn '&' (joined ps)).map parameter).find? (·.1 = key.toList)
      = (ps.find? (·.key = key)).map fun p => (p.key.toList, p.value.map String.toList) := by
  by_cases hps : ps = []
  · -- no parameters are written like one without a key
    subst hps
    have : [] ≠ key.toList := fun h => hkey (String.toList_eq_nil_iff.mp h.symm)
    simp [joined, joinWith, splitOn, parameter, this]
  · rw [joined, splitOn_joinWith '&' (by simpa using hps), find?_parameter]
    intro run hr
    obtain ⟨p, -, rfl⟩ := List.mem_map.mp hr
    exact fun hm => (p.text_plain '&' hm).1 rfl

namespace BucketUri

variable (u : BucketUri)

theorem mark_not_mem_front : '?' ∉ (u.scheme.text ++ u.bucket ++ u.path).toList := by
  simp only [String.toList_append, List.mem_append, not_or]
  refine ⟨⟨?_, fun hm => (u.bucket_plain '?' hm).2 rfl⟩, u.path_plain⟩
  cases u.scheme <;> decide

/-- **The value of a parameter is found in the whole URI.** -/
theorem queryValue?_text {key : String} (hkey : key ≠ "") :
    queryValue? u.text.toList key = u.value? key := by
  have hfront := u.mark_not_mem_front
  have htext : u.text.toList
      = (u.scheme.text ++ u.bucket ++ u.path).toList ++ u.queryText.toList := by
    simp [text]
  unfold queryValue? value?
  rw [htext]
  cases hq : u.query with
  | none =>
    have hnone : u.queryText.toList = [] := by simp [queryText, hq]
    rw [hnone, List.append_nil, splitOn_of_not_mem '?' hfront]
    rfl
  | some ps =>
    have hsome : u.queryText.toList = '?' :: joined ps := by
      rw [queryText, hq, Option.elim_some, String.toList_append,
        toList_intercalate_text]
      rfl
    rw [hsome, splitOn_append '?' hfront, splitOn_of_not_mem '?' (mark_not_mem_joined ps)]
    simp only [List.getElem?_cons_succ, List.getElem?_cons_zero, Option.bind_eq_bind,
      Option.bind_some, find?_joined ps hkey, Option.getD_some]
    cases ps.find? (·.key = key) with
    | none => rfl
    | some p => cases hv : p.value <;> simp [hv]

theorem endsName_path_query : EndsName (u.path ++ u.queryText).toList := by
  intro c hc
  rw [String.toList_append] at hc
  cases hpath : u.path.toList with
  | cons d ds =>
    rw [hpath] at hc
    exact .inl (u.path_rooted c (hpath ▸ hc))
  | nil =>
    rw [hpath, List.nil_append, queryText] at hc
    cases hq : u.query with
    | none => simp [hq] at hc
    | some ps =>
      rw [hq, Option.elim_some, String.toList_append] at hc
      exact .inr (Option.some.inj hc).symm

end BucketUri

/-! ## URIs with a scheme -/

/-- A URI with one of the schemes names the bucket of its rest, with the parameters of the whole
URI. -/
theorem ofUri_scheme (home : Option Bytes) (s : Scheme) (rest : String) :
    ofUri home (s.text ++ rest)
      = (bucketOf (s.text ++ rest) rest.toList).map fun bucket =>
          s.locate bucket (queryValue? (s.text ++ rest).toList "region")
            (queryValue? (s.text ++ rest).toList "endpoint") := by
  have hrest : dropStart? s.text.toList (s.text ++ rest).toList = some rest.toList :=
    dropStart?_eq_some_iff.mpr String.toList_append
  unfold ofUri
  cases s with
  | s3 =>
    simp only [Scheme.text] at hrest ⊢
    rw [hrest]
    dsimp only
    cases bucketOf ("s3://" ++ rest) rest.toList <;> rfl
  | gs =>
    simp only [Scheme.text] at hrest ⊢
    have hs3 : dropStart? "s3://".toList ("gs://" ++ rest).toList = none := by
      simp [dropStart?]
    rw [hs3, hrest]
    dsimp only [Option.or]
    cases bucketOf ("gs://" ++ rest) rest.toList <;> rfl
  | gcs =>
    simp only [Scheme.text] at hrest ⊢
    have hs3 : dropStart? "s3://".toList ("gcs://" ++ rest).toList = none := by
      simp [dropStart?]
    have hgs : dropStart? "gs://".toList ("gcs://" ++ rest).toList = none := by
      simp [dropStart?]
    rw [hs3, hgs, hrest]
    dsimp only [Option.or]
    cases bucketOf ("gcs://" ++ rest) rest.toList <;> rfl

theorem ofUri_bucketUri (home : Option Bytes) (u : BucketUri) :
    ofUri home u.text = .ok u.location := by
  have hrest : (u.bucket ++ u.path ++ u.queryText).toList
      = u.bucket.toList ++ (u.path ++ u.queryText).toList := by simp
  rw [BucketUri.text, ofUri_scheme, ← BucketUri.text, hrest,
    bucketOf_append _ u.bucket_ne u.bucket_plain u.endsName_path_query,
    u.queryValue?_text (by decide), u.queryValue?_text (by decide)]
  rfl

theorem ofUri_eq_error_iff (home : Option Bytes) (s : Scheme) (rest : String) (e : StorageError) :
    ofUri home (s.text ++ rest) = .error e ↔
      EndsName rest.toList ∧ e = .config (.noBucket (s.text ++ rest)) := by
  rw [ofUri_scheme, ← bucketOf_eq_error_iff]
  cases bucketOf (s.text ++ rest) rest.toList <;> simp [Except.map]

/-- **The laws of the URIs of buckets.** A URI that is put together from a scheme, a name, a path
and the parameters of a query names the bucket of that name; where the service has regions and
endpoints, with the values of the first parameters called `region` and `endpoint`. A URI with a
scheme is refused just if it names no bucket behind it, and that is an error of the settings. -/
theorem bucketUri_laws (home : Option Bytes) :
    (∀ u : BucketUri, ofUri home u.text = .ok u.location) ∧
      ∀ (s : Scheme) (rest : String) (e : StorageError),
        ofUri home (s.text ++ rest) = .error e ↔
          EndsName rest.toList ∧ e = .config (.noBucket (s.text ++ rest)) :=
  ⟨ofUri_bucketUri home, ofUri_eq_error_iff home⟩

/-- A bucket with separators in its path and in a value, with a key that goes on from another one,
and with a key that comes twice, without a value at first. -/
def repeatedKeyUri : BucketUri where
  scheme := .s3
  bucket := "models"
  path := "/a=b&c"
  query := some [
    ⟨"regions", some "none", by simp, by simp⟩,
    ⟨"endpoint", some "http://shop:9000/x=y", by simp, by simp⟩,
    ⟨"region", none, by simp, by simp⟩,
    ⟨"region", some "eu", by simp, by simp⟩]
  bucket_ne := by decide
  bucket_plain := by simp
  path_rooted := by simp
  path_plain := by decide

theorem bucketUri_laws_repeatedKeyUri :
    repeatedKeyUri.text
        = "s3://models/a=b&c?regions=none&endpoint=http://shop:9000/x=y&region&region=eu" ∧
      ofUri none repeatedKeyUri.text = .ok (.s3 "models" none (some "http://shop:9000/x=y")) :=
  ⟨by decide, (bucketUri_laws none).1 repeatedKeyUri⟩

end Depot.Location
