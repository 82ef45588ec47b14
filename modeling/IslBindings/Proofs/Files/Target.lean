import IslBindings.Files.Tree
import IslBindings.Proofs.Text.Rows

/-!
# Where paths lead

A path leads, if anywhere, to one place that its text and the working directory decide,
whatever the tree holds. A name joined to a directory leads to the place of that name in it.
-/

namespace IslBindings.Files

open Text

/-! ### Names -/

/-- A piece of a path that leads one directory down. -/
structure Path.IsName (name : String) : Prop where
  noSlash : '/' ∉ name.toList
  leads : Path.isIdle name = false
  down : name ≠ ".."

namespace Path

/-- What leads elsewhere has a slash or is at most as long as `..`. -/
theorem isName_of_length {name : String} (hslash : '/' ∉ name.toList)
    (hlength : 2 < name.toList.length) : IsName name := by
  refine ⟨hslash, ?_, ?_⟩
  · rw [isIdle, Bool.or_eq_false_iff, beq_eq_false_iff_ne, beq_eq_false_iff_ne]
    constructor <;> intro he <;> rw [he] at hlength <;> exact absurd hlength (by decide)
  · intro he
    rw [he] at hlength
    exact absurd hlength (by decide)

theorem IsName.ne_empty {name : String} (h : IsName name) : name ≠ "" := by
  rintro rfl
  exact absurd h.leads (by decide)

theorem IsName.isAbsolute {name : String} (h : IsName name) : isAbsolute name = false := by
  rw [Path.isAbsolute, Bool.eq_false_iff]
  intro hstart
  exact h.noSlash ((startsWith_iff.mp hstart).mem (by decide))

theorem IsName.step {name : String} (h : IsName name) (place : Place) :
    Tree.step place name = name :: place := by
  rw [Tree.step, h.leads, if_neg (by simp), if_neg h.down]

theorem IsName.pieces {name : String} (h : IsName name) : pieces name = [name] := by
  rw [Path.pieces, splitAtChar_of_not_mem h.noSlash, List.map_singleton, String.ofList_toList]

theorem pieces_append_slash (a b : String) : pieces (a ++ "/" ++ b) = pieces a ++ pieces b := by
  have hslash : (a ++ "/" ++ b).toList = a.toList ++ '/' :: b.toList := by simp
  rw [pieces, hslash, splitAtChar_append, List.map_append]
  rfl

theorem pieces_slash (a : String) : pieces (a ++ "/") = pieces a ++ [""] := by
  have happend := pieces_append_slash a ""
  rwa [String.append_empty] at happend

theorem isAbsolute_of_toList {p : String} {c : Char} {cs : List Char} (h : p.toList = c :: cs) :
    isAbsolute p = ('/' == c) := by
  have hslash : "/".toList = ['/'] := rfl
  rw [isAbsolute, startsWith, hslash, h, List.isPrefixOf_cons_cons, List.isPrefixOf_nil_left,
    Bool.and_true]

theorem exists_toList_eq_cons {p : String} (h : p ≠ "") : ∃ c cs, p.toList = c :: cs :=
  List.exists_cons_of_ne_nil fun he => h (String.toList_eq_nil_iff.mp he)

theorem isAbsolute_append {a : String} (h : a ≠ "") (b : String) :
    isAbsolute (a ++ b) = isAbsolute a := by
  obtain ⟨c, cs, hcs⟩ := exists_toList_eq_cons h
  have happend : (a ++ b).toList = c :: (cs ++ b.toList) := by
    rw [String.toList_append, hcs, List.cons_append]
  rw [isAbsolute_of_toList hcs, isAbsolute_of_toList happend]

/-- A base that ends in a slash, and any other that is not empty, come to the same. -/
theorem exists_join_eq {dir name : String} (hdir : dir ≠ "") (hname : isAbsolute name = false) :
    (∃ base, dir = base ++ "/" ∧ join dir name = base ++ "/" ++ name) ∨
      join dir name = dir ++ "/" ++ name := by
  by_cases hslash : endsWith dir "/" = true
  · left
    obtain ⟨base, hbase⟩ := List.isSuffixOf_iff_suffix.mp hslash
    refine ⟨String.ofList base, ?_, ?_⟩
    · rw [← String.toList_inj, String.toList_append, String.toList_ofList, hbase]
    · rw [join_of_slash hname hdir hslash, ← String.toList_inj]
      simp [← hbase]
  · right
    exact join_of_name hname hdir (Bool.eq_false_iff.mpr hslash)

theorem join_append {dir name : String} (hname : IsName name) {ending : String} :
    join dir name ++ ending = join dir (name ++ ending) := by
  have habs : isAbsolute (name ++ ending) = false := by
    rw [isAbsolute_append hname.ne_empty, hname.isAbsolute]
  simp only [join, habs, hname.isAbsolute]
  split
  · rfl
  · split
    · rw [String.append_assoc]
    · rw [String.append_assoc]

end Path

/-! ### Targets -/

namespace Tree

/-- The place that a path leads to. -/
def target (t : Tree) (p : String) : Place :=
  (Path.pieces p).foldl step (if Path.isAbsolute p then [] else t.here)

theorem eq_of_walk {t : Tree} {start place : Place} {pieces : List String}
    (h : t.walk start pieces = .ok place) : place = pieces.foldl step start := by
  induction pieces generalizing start with
  | nil =>
    cases h
    rfl
  | cons piece rest ih =>
    rw [walk] at h
    split at h
    · split at h
      · cases h
      · exact ih h
    · cases h
    · cases h

theorem foldl_route (t : Tree) {p : String} (hp : p ≠ "") :
    (t.route p).2.foldl step (t.route p).1 = t.target p := by
  obtain ⟨c, cs, hcs⟩ := Path.exists_toList_eq_cons hp
  have habs := Path.isAbsolute_of_toList hcs
  by_cases hc : c = '/'
  · subst hc
    have hpieces : Path.pieces p = "" :: (splitAtChar '/' cs).map String.ofList := by
      rw [Path.pieces, hcs, splitAtChar_self, List.map_cons]
    simp only [route, target, hpieces, habs]
    rfl
  · obtain ⟨piece, rest, hrest⟩ := exists_splitAtChar_eq_cons '/' cs
    have hpieces : Path.pieces p = String.ofList (c :: piece) :: rest.map String.ofList := by
      rw [Path.pieces, hcs, splitAtChar_cons hc hrest, List.map_cons]
    have hfirst : String.ofList (c :: piece) ≠ "" := by
      rw [ne_eq, ← String.toList_inj, String.toList_ofList]
      simp
    have hrel : ('/' == c) = false := beq_eq_false_iff_ne.mpr (Ne.symm hc)
    rw [target, habs, hrel, route, hpieces]
    split
    · next heq =>
      rw [List.cons.injEq] at heq
      exact absurd heq.1 hfirst
    · rfl

theorem eq_of_locate {t : Tree} {p : String} {place : Place} (h : t.locate p = .ok place) :
    place = t.target p := by
  simp only [locate] at h
  split at h
  · cases h
  · next hfault =>
    have hp : p ≠ "" := by
      rintro rfl
      exact absurd hfault (by decide)
    rw [← foldl_route t hp]
    exact eq_of_walk h

theorem target_congr {t t' : Tree} (h : t'.here = t.here) (p : String) :
    t'.target p = t.target p := by
  rw [target, target, h]

/-- A slash at the end leads no further. -/
theorem target_slash (t : Tree) {dir : String} (hdir : dir ≠ "") :
    t.target (dir ++ "/") = t.target dir := by
  rw [target, target, Path.pieces_slash, Path.isAbsolute_append hdir, List.foldl_append]
  rfl

theorem target_slash_name (t : Tree) (base : String) {name : String} (hname : Path.IsName name) :
    t.target (base ++ "/" ++ name) = name :: t.target (base ++ "/") := by
  have hne : base ++ "/" ≠ "" := by
    rw [ne_eq, ← String.toList_inj]
    simp
  rw [target, target, Path.pieces_append_slash, Path.pieces_slash, Path.isAbsolute_append hne, hname.pieces,
    List.foldl_append, List.foldl_append, List.foldl_cons, List.foldl_cons, List.foldl_nil,
    List.foldl_nil, hname.step]
  rfl

theorem target_join (t : Tree) (dir : String) {name : String} (hname : Path.IsName name) :
    t.target (Path.join dir name) = name :: t.target dir := by
  by_cases hdir : dir = ""
  · rw [hdir, Path.join_empty_left, target, target, hname.pieces, hname.isAbsolute, List.foldl_cons,
      List.foldl_nil, hname.step]
    rfl
  · rcases Path.exists_join_eq hdir hname.isAbsolute with ⟨base, rfl, hjoin⟩ | hjoin
    · rw [hjoin, target_slash_name t base hname]
    · rw [hjoin, target_slash_name t dir hname, target_slash t hdir]

end Tree

end IslBindings.Files
