import Depot.Location
import Depot.Proofs.Path

/-!
# Folders below the home folder

A URI that begins with `~/`, with or without `local://` in front, names the home folder followed by
its rest. The parts of a path are the pieces that it has between its slashes, without empty ones and
dots (`Path.parts`); its steps are the parts and, if it is absolute, the root in front.

The rest is joined to the home folder as any path is joined to another one, so a rest that is itself
absolute stands alone: `~//etc` is `/etc` for every home folder. No other rest does that.

Results:
* `ofUri_homeUris`: the folder that such a URI names.
* `parts_join_iff`, `steps_join_iff`: when a path that is joined comes behind the other one.
* `expanded_iff`: **the folder is the home folder followed by the rest just if the rest does not
  begin with a slash**, or the home folder says nothing that could be lost.

This is the local part of `parse` of `StorageUri` (the specification, section 10.4, says that a
leading `~/` is expanded). Out of scope: how `home_dir` finds the home folder.
-/

namespace Depot

open Text

/-! ## Parts of a path -/

namespace Path

/-- What a path says between its slashes; empty pieces and dots say nothing. -/
def parts (p : Path) : List Component :=
  p.pieces.filterMap step?

theorem steps_eq_parts (p : Path) : p.steps = (if p.isAbsolute then [.root] else []) ++ p.parts :=
  p.steps_eq

/-- A path comes behind another one, unless it is absolute and there was something before it. -/
theorem parts_join_iff (p q : Path) :
    (p.join q).parts = p.parts ++ q.parts ↔ q.isAbsolute = false ∨ p.parts = [] := by
  by_cases hq : q.isAbsolute = true
  · rw [join_of_isAbsolute p hq, List.self_eq_append_left]
    simp [hq]
  · rw [Bool.not_eq_true] at hq
    exact iff_of_true (filterMap_pieces_join step?_nil p hq) (.inl hq)

theorem steps_join_iff (p q : Path) :
    (p.join q).steps = p.steps ++ q.parts ↔ q.isAbsolute = false ∨ p.steps = [.root] := by
  by_cases hq : q.isAbsolute = true
  · rw [join_of_isAbsolute p hq, q.steps_eq_parts, if_pos hq, List.append_cancel_right_eq]
    simp [hq, eq_comm]
  · rw [Bool.not_eq_true] at hq
    refine iff_of_true ?_ (.inl hq)
    rw [steps_join p hq, q.steps_eq_parts, hq]
    rfl

end Path

/-! ## The folder that a URI names -/

namespace Location

/-- The URIs of a folder below the home folder. -/
def homeUris (rest : String) : List String :=
  ["~/" ++ rest, "local://~/" ++ rest]

theorem ofPath_tilde (home : String) (uri : String) (rest : String) :
    ofPath (some (encode home)) uri ("~/" ++ rest).toList
      = .ok (.folder ((Path.ofString home).join (.ofString rest))) := by
  have htext : ("~/" ++ rest).toList = '~' :: '/' :: rest.toList := by simp
  unfold ofPath expandHome
  rw [htext, if_neg (List.cons_ne_nil _ _)]
  simp only [Option.bind_some, decode?_encode, String.ofList_toList]
  rfl

theorem ofUri_homeUris (home rest : String) :
    ∀ uri ∈ homeUris rest, ofUri (some (encode home)) uri
      = .ok (.folder ((Path.ofString home).join (.ofString rest))) := by
  intro uri huri
  rcases List.mem_pair.mp huri with rfl | rfl
  · rw [← ofPath_tilde home ("~/" ++ rest) rest]
    unfold ofUri
    simp [dropStart?]
  · rw [← ofPath_tilde home ("local://~/" ++ rest) rest]
    unfold ofUri
    simp [dropStart?]

/-- **A folder below the home folder is where its URI says, unless the rest begins with a slash.**
For every home folder that is a text, a URI names a folder. What this says is what the home folder
says followed by what the rest says just if the rest does not begin with a slash or the home folder
says nothing between its slashes; counting where the paths begin, just if the rest does not begin
with a slash or the home folder is the root. -/
theorem expanded_iff (home rest : String) :
    ∃ p, (∀ uri ∈ homeUris rest, ofUri (some (encode home)) uri = .ok (.folder p)) ∧
      (p.parts = (Path.ofString home).parts ++ (Path.ofString rest).parts ↔
        rest.toList.head? ≠ some '/' ∨ (Path.ofString home).parts = []) ∧
      (p.steps = (Path.ofString home).steps ++ (Path.ofString rest).parts ↔
        rest.toList.head? ≠ some '/' ∨ (Path.ofString home).steps = [.root]) := by
  have hrest : (Path.ofString rest).isAbsolute = false ↔ rest.toList.head? ≠ some '/' := by
    rw [Ne, ← Path.isAbsolute_ofString, Bool.not_eq_true]
  refine ⟨_, ofUri_homeUris home rest, ?_, ?_⟩
  · rw [Path.parts_join_iff, hrest]
  · rw [Path.steps_join_iff, hrest]

/-- A second slash leads out of the home folder. -/
theorem not_expanded_twoSlashes :
    (∀ uri ∈ ["~//etc", "local://~//etc"],
        ofUri (some (encode "/home/robot")) uri = .ok (.folder (.ofString "/etc"))) ∧
      (Path.ofString "/etc").parts
        ≠ (Path.ofString "/home/robot").parts ++ (Path.ofString "/etc").parts := by
  refine ⟨ofUri_homeUris "/home/robot" "/etc", ?_⟩
  rw [Ne, List.self_eq_append_left]
  decide

end Location

end Depot
