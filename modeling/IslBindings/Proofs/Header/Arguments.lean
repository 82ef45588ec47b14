import IslBindings.Header.Expansion
import IslBindings.Proofs.Lists
import IslBindings.Proofs.Nesting.Walk
import IslBindings.Proofs.Text.Bytes
import IslBindings.Proofs.Text.Trimming

/-!
# Argument lists by bytes

The walk through the bytes of an argument list with a counter of open parentheses, which slices
the arguments out of the text by byte offsets. The main statement: the counter never falls below
zero, no slice starts or ends inside a character, and the arguments are the pieces that
`Invocation.ofText?` reads.
-/

namespace IslBindings.Header

open Text Nesting

variable {text s t : List Char} {c : Char} {b : UInt8} {depth pos o : Nat}

/-! ### Parentheses in bytes -/

def byteMark (b : UInt8) : Mark := charMark (Char.ofUInt8 b)

theorem isAscii_of_charMark (h : charMark c ≠ .plain) : isAscii c = true := by
  have hmarks : c = '(' ∨ c = ')' ∨ c = ',' := by
    simp only [charMark] at h
    grind
  rcases hmarks with rfl | rfl | rfl <;> rfl

theorem charMark_eq_separates_iff (c : Char) : charMark c = .separates ↔ c = ',' := by
  simp only [charMark]
  grind

theorem bytes_cons_of_charMark (h : charMark c ≠ .plain) (s : List Char) :
    bytes (c :: s) = c.toUInt8 :: bytes s ∧ byteMark c.toUInt8 = charMark c := by
  have hascii := isAscii_of_charMark h
  exact ⟨bytes_cons_of_isAscii hascii s, by rw [byteMark, ofUInt8_toUInt8 hascii]⟩

/-- No parenthesis or comma stands inside a longer character. -/
theorem byteMark_of_mem (hc : charMark c = .plain) (hb : b ∈ String.utf8EncodeChar c) :
    byteMark b = .plain := by
  cases h : isAscii c with
  | true =>
    rw [utf8EncodeChar_of_isAscii h, List.mem_singleton] at hb
    rw [hb, byteMark, ofUInt8_toUInt8 h, hc]
  | false =>
    have hbyte := isAscii_of_mem_utf8EncodeChar h hb
    by_contra hne
    rw [isAscii_of_charMark hne] at hbyte
    cases hbyte

theorem close?_bytes (depth : Nat) (s : List Char) :
    close? byteMark depth (bytes s) =
      (close? charMark depth s).map fun (inner, after) => (bytes inner, bytes after) := by
  induction s generalizing depth with
  | nil => rfl
  | cons c s ih =>
    -- A character that is walked over leaves its bytes with what stands inside.
    have hkept : ∀ d, (close? byteMark d (bytes s)).map
          (fun (inner, after) => (String.utf8EncodeChar c ++ inner, after)) =
        ((close? charMark d s).map fun (inner, after) => (c :: inner, after)).map
          fun (inner, after) => (bytes inner, bytes after) := by
      intro d
      rw [ih, Option.map_map, Option.map_map]
      rfl
    by_cases hplain : charMark c = .plain
    · have hbytes : Balanced byteMark false (String.utf8EncodeChar c) :=
        balanced_of_forall_plain fun b hb => byteMark_of_mem hplain hb
      rw [bytes_cons, close?_append hbytes, close?_other (.inr hplain), hkept]
    · obtain ⟨hbytes, hmark⟩ := bytes_cons_of_charMark hplain s
      rw [utf8EncodeChar_of_isAscii (isAscii_of_charMark hplain)] at hkept
      rw [hbytes]
      cases hc : charMark c with
      | plain => exact absurd hc hplain
      | opens =>
        rw [close?_opens (hmark.trans hc), close?_opens hc, ← hkept]
        rfl
      | separates =>
        rw [close?_other (.inl (hmark.trans hc)), close?_other (.inl hc), ← hkept]
        rfl
      | closes =>
        cases depth with
        | zero =>
          rw [close?_closes_zero (hmark.trans hc), close?_closes_zero hc]
          rfl
        | succ d =>
          rw [close?_closes_succ (hmark.trans hc), close?_closes_succ hc, ← hkept]
          rfl

/-! ### The walk -/

def slice (text : List Char) (start stop : Nat) : Except Fault (List Char) :=
  match slice? text start stop with
  | some inside => .ok inside
  | none => .error .offBoundary

/-- The arguments from the byte at `index` on, behind `args`, and the offset behind the closing
parenthesis; `start` is the offset at which the argument in hand starts. -/
def walkArguments (text : List Char) : List (List Char) → Nat → Nat → Nat → List UInt8 →
    Except Fault (Option (List (List Char) × Nat))
  | _, _, _, _, [] => .ok none
  | args, depth, start, index, b :: rest =>
    match byteMark b with
    | .opens => walkArguments text args (depth + 1) start (index + 1) rest
    | .closes => (leave depth).bind fun left =>
        if left = 0 then
          (slice text start index).map fun arg => some (args ++ [trim arg], index + 1)
        else walkArguments text args left start (index + 1) rest
    | .separates =>
        if depth = 1 then
          (slice text start index).bind fun arg =>
            walkArguments text (args ++ [trim arg]) depth (index + 1) (index + 1) rest
        else walkArguments text args depth start (index + 1) rest
    | .plain => walkArguments text args depth start (index + 1) rest

section Steps

variable {args : List (List Char)} {start index : Nat}

theorem walkArguments_opens (hb : byteMark b = .opens) (rest : List UInt8) :
    walkArguments text args depth start index (b :: rest) =
      walkArguments text args (depth + 1) start (index + 1) rest := by
  rw [walkArguments, hb]

theorem walkArguments_closes_one (hb : byteMark b = .closes) (rest : List UInt8) :
    walkArguments text args 1 start index (b :: rest) =
      (slice text start index).map fun arg => some (args ++ [trim arg], index + 1) := by
  rw [walkArguments, hb]
  rfl

theorem walkArguments_closes_succ (hb : byteMark b = .closes) (rest : List UInt8) :
    walkArguments text args (depth + 2) start index (b :: rest) =
      walkArguments text args (depth + 1) start (index + 1) rest := by
  rw [walkArguments, hb]
  rfl

theorem walkArguments_separates_one (hb : byteMark b = .separates) (rest : List UInt8) :
    walkArguments text args 1 start index (b :: rest) =
      (slice text start index).bind fun arg =>
        walkArguments text (args ++ [trim arg]) 1 (index + 1) (index + 1) rest := by
  rw [walkArguments, hb]
  rfl

theorem walkArguments_separates_succ (hb : byteMark b = .separates) (rest : List UInt8) :
    walkArguments text args (depth + 2) start index (b :: rest) =
      walkArguments text args (depth + 2) start (index + 1) rest := by
  rw [walkArguments, hb]
  rfl

theorem walkArguments_plain {bs : List UInt8} (h : ∀ b ∈ bs, byteMark b = .plain)
    (rest : List UInt8) :
    walkArguments text args depth start index (bs ++ rest) =
      walkArguments text args depth start (index + bs.length) rest := by
  induction bs generalizing index with
  | nil => rfl
  | cons b bs ih =>
    obtain ⟨hb, hbs⟩ := List.forall_mem_cons.mp h
    rw [List.cons_append, walkArguments, hb, List.length_cons, Nat.add_comm bs.length,
      ← Nat.add_assoc]
    exact ih hbs

end Steps

/-! ### What the walk answers -/

/-- The answer `depth` groups deep in the list, with `front` before the argument in hand and
`inside` read of it. -/
def argumentsFrom (args : List (List Char)) (front inside : List Char) (depth : Nat)
    (s : List Char) : Option (List (List Char) × Nat) :=
  (close? charMark depth s).map fun (inner, _) =>
    (args ++ (inside.foldr glue (splitFrom charMark depth inner)).map trim,
      (bytes (front ++ inside ++ inner)).length + 1)

section Answers

variable {args : List (List Char)} {front inside : List Char}

theorem slice_append (h : text = front ++ (inside ++ s)) :
    slice text (bytes front).length (bytes (front ++ inside)).length = .ok inside := by
  rw [slice, slice?_eq_some_iff.mpr ⟨front, s, h, rfl, rfl⟩]

example : slice ['é'] 0 1 = .error .offBoundary := by decide

theorem foldr_glue (inside piece : List Char) (pieces : List (List Char)) :
    inside.foldr glue (piece :: pieces) = (inside ++ piece) :: pieces := by
  induction inside with
  | nil => rfl
  | cons c inside ih => rw [List.foldr_cons, ih, glue, List.cons_append]

/-- A character that does not cut goes to the argument in hand. -/
theorem argumentsFrom_kept {d : Nat}
    (hclose : close? charMark depth (c :: s) =
      (close? charMark d s).map fun (inner, after) => (c :: inner, after))
    (hsplit : ∀ inner, splitFrom charMark depth (c :: inner) =
      glue c (splitFrom charMark d inner)) :
    argumentsFrom args front inside depth (c :: s) =
      argumentsFrom args front (inside ++ [c]) d s := by
  rw [argumentsFrom, hclose, Option.map_map]
  refine congrArg (Option.map · _) (funext fun (inner, _) => ?_)
  simp only [Function.comp_apply, hsplit, List.foldr_append, List.foldr_cons, List.foldr_nil,
    List.append_assoc, List.singleton_append]

/-- At a comma of the list an empty argument begins. -/
theorem argumentsFrom_separates (hc : charMark c = .separates) :
    argumentsFrom args front inside 0 (c :: s) =
      argumentsFrom (args ++ [trim inside]) (front ++ (inside ++ [c])) [] 0 s := by
  rw [argumentsFrom, close?_other (.inl hc), Option.map_map]
  refine congrArg (Option.map · _) (funext fun (inner, _) => ?_)
  simp [splitFrom_separates_zero hc, foldr_glue]

theorem argumentsFrom_closes (hc : charMark c = .closes) :
    argumentsFrom args front inside 0 (c :: s) =
      some (args ++ [trim inside], (bytes (front ++ inside)).length + 1) := by
  simp [argumentsFrom, close?_closes_zero hc, splitFrom, foldr_glue]

/-- The counter is one ahead of the depth in the list, and both ends of the argument in hand are
ends of characters. -/
theorem walkArguments_bytes (h : text = front ++ (inside ++ s)) :
    walkArguments text args (depth + 1) (bytes front).length (bytes (front ++ inside)).length
        (bytes s) =
      .ok (argumentsFrom args front inside depth s) := by
  induction s generalizing args depth front inside with
  | nil => rfl
  | cons c s ih =>
    have htext : text = front ++ ((inside ++ [c]) ++ s) := by simpa using h
    have hindex : (bytes (front ++ (inside ++ [c]))).length =
        (bytes (front ++ inside)).length + (String.utf8EncodeChar c).length := by
      rw [← List.append_assoc, bytes_append, bytes_cons, bytes_nil, List.append_nil,
        List.length_append]
    by_cases hplain : charMark c = .plain
    · rw [bytes_cons, walkArguments_plain fun b hb => byteMark_of_mem hplain hb, ← hindex, ih htext,
        argumentsFrom_kept (close?_other (.inr hplain) ..) (splitFrom_plain hplain depth)]
    · obtain ⟨hbytes, hmark⟩ := bytes_cons_of_charMark hplain s
      rw [utf8EncodeChar_of_isAscii (isAscii_of_charMark hplain), List.length_singleton] at hindex
      rw [hbytes]
      cases hc : charMark c with
      | plain => exact absurd hc hplain
      | opens =>
        rw [walkArguments_opens (hmark.trans hc), ← hindex, ih htext,
          argumentsFrom_kept (close?_opens hc ..) (splitFrom_opens hc depth)]
      | closes =>
        cases depth with
        | zero =>
          rw [walkArguments_closes_one (hmark.trans hc), slice_append h, argumentsFrom_closes hc]
          rfl
        | succ d =>
          rw [walkArguments_closes_succ (hmark.trans hc), ← hindex, ih htext,
            argumentsFrom_kept (close?_closes_succ hc ..) (splitFrom_closes hc d)]
      | separates =>
        cases depth with
        | zero =>
          have hnext : text = front ++ (inside ++ [c]) ++ ([] ++ s) := by simpa using htext
          rw [walkArguments_separates_one (hmark.trans hc), slice_append h,
            argumentsFrom_separates hc, ← ih hnext, List.append_nil, hindex]
          rfl
        | succ d =>
          rw [walkArguments_separates_succ (hmark.trans hc), ← hindex, ih htext,
            argumentsFrom_kept (close?_other (.inl hc) ..) (splitFrom_separates_succ hc d)]

end Answers

/-! ### Where the list opens -/

/-- Behind nothing but blanks a parenthesis stands at the offset `o`. -/
def OpensAt (text : List Char) (pos o : Nat) : Prop :=
  ∃ blanks rest, (bytes text).drop pos = blanks ++ '('.toUInt8 :: rest ∧
    (∀ b ∈ blanks, isBlankByte b = true) ∧ o = pos + blanks.length

/-- The list takes the bytes from `o` to `stop`: the parenthesis at `o` is closed at `stop`. -/
def ListAt (text : List Char) (pos o stop : Nat) : Prop :=
  OpensAt text pos o ∧ IsLeast {i | EvensOut byteMark (bytes text) o i} stop

/-- The arguments of the list that starts at an offset, and the offset behind it. -/
def argumentsAt (text : List Char) (pos : Nat) : Except Fault (Option (List (List Char) × Nat)) :=
  let o := pos + (((bytes text).drop pos).takeWhile isBlankByte).length
  if (bytes text)[o]? = some '('.toUInt8 then
    walkArguments text [] 0 (o + 1) o ((bytes text).drop o)
  else .ok none

theorem opensAt_iff :
    OpensAt text pos o ↔ o = pos + (((bytes text).drop pos).takeWhile isBlankByte).length ∧
      (bytes text)[o]? = some '('.toUInt8 := by
  constructor
  · rintro ⟨blanks, rest, hdrop, hblanks, rfl⟩
    have hstop : ∀ b, ('('.toUInt8 :: rest).head? = some b → isBlankByte b = false := by
      intro b hb
      cases hb
      rfl
    rw [hdrop, (takeWhile_append_of_stop hblanks hstop).1]
    refine ⟨rfl, ?_⟩
    rw [← List.getElem?_drop, hdrop, List.getElem?_append_right (Nat.le_refl _), Nat.sub_self]
    rfl
  · rintro ⟨rfl, hparen⟩
    rw [← List.getElem?_drop] at hparen
    obtain ⟨blanks, rest, hdrop, hlength⟩ := exists_append_cons hparen
    have hblanks : blanks = ((bytes text).drop pos).takeWhile isBlankByte := by
      rw [List.prefix_iff_eq_take.mp (List.takeWhile_prefix isBlankByte), ← hlength, hdrop,
        List.take_left]
    exact ⟨blanks, rest, hdrop, hblanks ▸ List.all_eq_true.mp List.all_takeWhile, by rw [hlength]⟩

theorem argumentsAt_of_opensAt {front : List Char} (htext : text = front ++ '(' :: s)
    (h : OpensAt text pos (bytes front).length) :
    argumentsAt text pos = .ok ((close? charMark 0 s).map fun (inner, _) =>
      ((split charMark inner).map trim, (bytes (front ++ '(' :: inner)).length + 1)) := by
  obtain ⟨ho, hparen⟩ := opensAt_iff.mp h
  have hbytes : bytes ('(' :: s) = '('.toUInt8 :: bytes s := bytes_cons_of_isAscii rfl s
  have hopened : (bytes (front ++ ['('])).length = (bytes front).length + 1 := by
    rw [bytes_append, List.length_append]
    rfl
  have hinside : text = front ++ ['('] ++ ([] ++ s) := by simpa using htext
  have hwalk : walkArguments text [] 1 ((bytes front).length + 1) ((bytes front).length + 1)
      (bytes s) = .ok (argumentsFrom [] (front ++ ['(']) [] 0 s) := by
    rw [← walkArguments_bytes hinside, List.append_nil, hopened]
  rw [argumentsAt, ← ho, if_pos hparen, htext, bytes_append, List.drop_left, ← htext, hbytes,
    walkArguments]
  refine hwalk.trans ?_
  simp [argumentsFrom, split]

theorem argumentsAt_of_not_opensAt (h : ∀ o, ¬OpensAt text pos o) :
    argumentsAt text pos = .ok none := by
  rw [argumentsAt, if_neg]
  exact fun hparen => h _ (opensAt_iff.mpr ⟨rfl, hparen⟩)

theorem OpensAt.exists_append (h : OpensAt text pos o) :
    ∃ front s, text = front ++ '(' :: s ∧ (bytes front).length = o :=
  exists_append_of_getElem?_bytes (opensAt_iff.mp h).2 rfl

theorem opensAt_append_iff {front : List Char} :
    OpensAt (front ++ s) (bytes front).length o ↔
      ∃ inside, s.dropWhile isAsciiBlank = '(' :: inside ∧
        o = (bytes (front ++ s.takeWhile isAsciiBlank)).length := by
  rw [opensAt_iff, bytes_append, List.drop_left, takeWhile_bytes, bytes_append, List.length_append]
  constructor
  · rintro ⟨rfl, hparen⟩
    rw [List.getElem?_append_right (Nat.le_add_right ..), Nat.add_sub_cancel_left] at hparen
    obtain ⟨blanks, inside, hs, hlength⟩ := exists_append_of_getElem?_bytes hparen rfl
    have hcut : s.takeWhile isAsciiBlank ++ s.dropWhile isAsciiBlank = blanks ++ '(' :: inside :=
      List.takeWhile_append_dropWhile.trans hs
    exact ⟨inside, (append_inj_of_bytes hcut hlength.symm).2, rfl⟩
  · rintro ⟨inside, hinside, rfl⟩
    have hbytes : bytes s = bytes (s.takeWhile isAsciiBlank) ++ '('.toUInt8 :: bytes inside := by
      rw [← bytes_cons_of_isAscii rfl, ← hinside, ← bytes_append, List.takeWhile_append_dropWhile]
    refine ⟨rfl, ?_⟩
    rw [List.getElem?_append_right (Nat.le_add_right ..), Nat.add_sub_cancel_left, hbytes,
      List.getElem?_append_right (Nat.le_refl _), Nat.sub_self]
    rfl

theorem length_bytes_opened (front inner : List Char) :
    (bytes (front ++ '(' :: inner)).length = (bytes front).length + 1 + (bytes inner).length := by
  rw [bytes_append, bytes_cons_of_isAscii rfl, List.length_append, List.length_cons]
  omega

/-- The closing parenthesis stands where the bytes even out. -/
theorem isLeast_bytes_iff (front : List Char) {stop : Nat} :
    IsLeast {i | EvensOut byteMark (bytes (front ++ '(' :: s)) (bytes front).length i} stop ↔
      ∃ inner after, close? charMark 0 s = some (inner, after) ∧
        stop = (bytes (front ++ '(' :: inner)).length := by
  have hopens : byteMark '('.toUInt8 = .opens := rfl
  rw [bytes_append, bytes_cons_of_isAscii rfl, isLeast_iff_close? hopens, close?_bytes]
  simp only [Option.map_eq_some_iff, Prod.exists, Prod.mk.injEq, length_bytes_opened]
  constructor
  · rintro ⟨-, -, ⟨inner, after, hclose, rfl, rfl⟩, hstop⟩
    exact ⟨inner, after, hclose, hstop.symm⟩
  · rintro ⟨inner, after, hclose, hstop⟩
    exact ⟨_, _, ⟨inner, after, hclose, rfl, rfl⟩, hstop.symm⟩

theorem ListAt.exists_append {stop : Nat} (h : ListAt text pos o stop) :
    ∃ front s inner after, text = front ++ '(' :: s ∧ (bytes front).length = o ∧
      close? charMark 0 s = some (inner, after) ∧
      stop = (bytes (front ++ '(' :: inner)).length := by
  obtain ⟨ho, hleast⟩ := h
  obtain ⟨front, s, rfl, rfl⟩ := ho.exists_append
  obtain ⟨inner, after, hclose, hstop⟩ := (isLeast_bytes_iff front).mp hleast
  exact ⟨front, s, inner, after, rfl, rfl, hclose, hstop⟩

/-! ### The arguments -/

theorem charMark_of_isBlank (h : isBlank c = true) : charMark c = .plain := by
  have hne : ∀ d, isBlank d = false → c ≠ d := fun d hd he => by
    rw [he, hd] at h
    cases h
  rw [charMark, if_neg (hne '(' (by decide)), if_neg (hne ')' (by decide)),
    if_neg (hne ',' (by decide))]

theorem balanced_trim (h : IsBalanced charMark s) : IsBalanced charMark (trim s) := by
  obtain ⟨g, k, hg, hk, hs⟩ := exists_trim_append s
  rw [hs] at h
  exact h.of_append (fun c hc => charMark_of_isBlank (hg c hc))
    fun c hc => charMark_of_isBlank (hk c hc)

theorem slice?_inside {front inner after : List Char}
    (h : text = front ++ '(' :: (inner ++ ')' :: after)) :
    slice? text ((bytes front).length + 1) (bytes (front ++ '(' :: inner)).length = some inner :=
  slice?_eq_some_iff.mpr ⟨front ++ ['('], ')' :: after, by simpa using h,
    length_bytes_opened front [], by simp⟩

theorem exists_argumentsAt (text : List Char) (pos : Nat) :
    ∃ found, argumentsAt text pos = .ok found := by
  by_cases hopens : ∃ o, OpensAt text pos o
  · obtain ⟨o, ho⟩ := hopens
    obtain ⟨front, s, htext, rfl⟩ := ho.exists_append
    exact ⟨_, argumentsAt_of_opensAt htext ho⟩
  · exact ⟨none, argumentsAt_of_not_opensAt fun o ho => hopens ⟨o, ho⟩⟩

theorem argumentsAt_eq_some_iff {args : List (List Char)} {after : Nat} :
    argumentsAt text pos = .ok (some (args, after)) ↔
      ∃ o stop inner pieces, ListAt text pos o stop ∧ after = stop + 1 ∧
        slice? text (o + 1) stop = some inner ∧ IsCut charMark ',' inner pieces ∧
        args = pieces.map trim := by
  constructor
  · intro h
    by_cases hopens : ∃ o, OpensAt text pos o
    · obtain ⟨o, ho⟩ := hopens
      obtain ⟨front, s, htext, rfl⟩ := ho.exists_append
      rw [argumentsAt_of_opensAt htext ho] at h
      obtain ⟨⟨inner, rest⟩, hclose, heq⟩ := Option.map_eq_some_iff.mp (Except.ok.inj h)
      cases heq
      have hleast := (isLeast_bytes_iff front).mpr ⟨inner, rest, hclose, rfl⟩
      have hinner : IsBalanced charMark inner := balanced_iff.mp (balanced_of_close? hclose)
      obtain ⟨c, hc, rfl⟩ := exists_append_of_close? charMark hclose
      obtain rfl := eq_of_charMark_eq_closes hc
      exact ⟨_, _, inner, split charMark inner, ⟨ho, htext ▸ hleast⟩, rfl, slice?_inside htext,
        (isCut_iff charMark_eq_separates_iff).mpr ⟨hinner, rfl⟩, rfl⟩
    · rw [argumentsAt_of_not_opensAt fun o ho => hopens ⟨o, ho⟩] at h
      cases h
  · rintro ⟨o, stop, inner, pieces, hlist, rfl, hslice, hcut, rfl⟩
    obtain ⟨front, s, inner', rest, htext, rfl, hclose, rfl⟩ := hlist.exists_append
    rw [argumentsAt_of_opensAt htext hlist.1, hclose]
    obtain ⟨c, hc, rfl⟩ := exists_append_of_close? charMark hclose
    obtain rfl := eq_of_charMark_eq_closes hc
    obtain rfl : inner' = inner := Option.some.inj ((slice?_inside htext).symm.trans hslice)
    rw [((isCut_iff charMark_eq_separates_iff).mp hcut).2]
    rfl

theorem exists_some_argumentsAt_iff :
    (∃ args after, argumentsAt text pos = .ok (some (args, after))) ↔
      ∃ o stop, ListAt text pos o stop := by
  constructor
  · rintro ⟨args, after, h⟩
    obtain ⟨o, stop, -, -, hlist, -⟩ := argumentsAt_eq_some_iff.mp h
    exact ⟨o, stop, hlist⟩
  · rintro ⟨o, stop, hlist⟩
    obtain ⟨front, s, inner, after, htext, rfl, hclose, rfl⟩ := hlist.exists_append
    exact ⟨_, _, by rw [argumentsAt_of_opensAt htext hlist.1, hclose, Option.map_some]⟩

theorem argumentsAt_append (front s : List Char) :
    argumentsAt (front ++ s) (bytes front).length =
      .ok ((Invocation.ofText? s).map fun call =>
        (call.args, (bytes front).length + (bytes call.source).length)) := by
  have hcut : s.takeWhile isAsciiBlank ++ s.dropWhile isAsciiBlank = s :=
    List.takeWhile_append_dropWhile
  rw [Invocation.ofText?]
  cases hdrop : dropStart? ['('] (s.dropWhile isAsciiBlank) with
  | none =>
    refine argumentsAt_of_not_opensAt fun o ho => ?_
    obtain ⟨inside, hinside, -⟩ := opensAt_append_iff.mp ho
    rw [dropStart?_eq_some_iff.mpr hinside] at hdrop
    cases hdrop
  | some inside =>
    have hinside : s.dropWhile isAsciiBlank = '(' :: inside := dropStart?_eq_some_iff.mp hdrop
    have ho : OpensAt (front ++ s) (bytes front).length
        (bytes (front ++ s.takeWhile isAsciiBlank)).length :=
      opensAt_append_iff.mpr ⟨inside, hinside, rfl⟩
    have htext : front ++ s = front ++ s.takeWhile isAsciiBlank ++ '(' :: inside := by
      rw [← hinside, List.append_assoc, hcut]
    rw [argumentsAt_of_opensAt htext ho, Option.bind_some, Option.map_map]
    refine congrArg _ (congrArg (Option.map · _) (funext ?_))
    rintro ⟨inner, after⟩
    have hparen : (bytes [')']).length = 1 := rfl
    simp only [Function.comp_apply, bytes_append, List.length_append, hparen, Nat.add_assoc]

theorem map_trim_of_blank {pieces : List (List Char)} (hcut : IsCut charMark ',' s pieces)
    (hblank : AllBlank s) : pieces.map trim = [[]] := by
  have hplain : Balanced charMark false s :=
    balanced_of_forall_plain fun c hc => charMark_of_isBlank (hblank c hc)
  have hsplit : split charMark ([','].intercalate [s]) = [s] :=
    split_intercalate rfl (by simp) (List.forall_mem_singleton.mpr hplain)
  rw [List.intercalate_singleton] at hsplit
  rw [((isCut_iff charMark_eq_separates_iff).mp hcut).2, hsplit, List.map_singleton,
    trim_of_blank hblank]

/-- From any offset the walk ends without a fault. It finds arguments exactly if an opening
parenthesis follows the blanks and is closed; then it ends behind the closing one, and the
arguments are the trimmed pieces of what stands between the two, cut at exactly the commas
outside its parentheses: one more than such commas, each balanced, one empty one for blanks. -/
theorem arguments_exact (text : List Char) (pos : Nat) :
    ∃ found, argumentsAt text pos = .ok found ∧
      (found.isSome ↔ ∃ o stop, ListAt text pos o stop) ∧
      (∀ args after, found = some (args, after) ↔
        ∃ o stop inner pieces, ListAt text pos o stop ∧ after = stop + 1 ∧
          slice? text (o + 1) stop = some inner ∧ IsCut charMark ',' inner pieces ∧
          args = pieces.map trim) ∧
      (∀ args after, found = some (args, after) →
        ∃ o inner, ListAt text pos o (after - 1) ∧ slice? text (o + 1) (after - 1) = some inner ∧
          args.length = (outer charMark inner).length + 1 ∧
          (∀ arg ∈ args, IsBalanced charMark arg) ∧ (AllBlank inner → args = [[]])) ∧
      ∀ front s, text = front ++ s → (bytes front).length = pos →
        found = (Invocation.ofText? s).map fun call =>
          (call.args, pos + (bytes call.source).length) := by
  obtain ⟨found, hfound⟩ := exists_argumentsAt text pos
  have hvalue : ∀ value, found = value ↔ argumentsAt text pos = .ok value := fun value =>
    ⟨fun h => h ▸ hfound, fun h => Except.ok.inj (hfound.symm.trans h)⟩
  have hiff : ∀ args after, found = some (args, after) ↔ _ := fun args after =>
    (hvalue _).trans argumentsAt_eq_some_iff
  refine ⟨found, hfound, ?_, hiff, fun args after h => ?_, ?_⟩
  · rw [Option.isSome_iff_exists, Prod.exists, ← exists_some_argumentsAt_iff]
    exact exists₂_congr fun args after => hvalue _
  · obtain ⟨o, stop, inner, pieces, hlist, rfl, hslice, hcut, rfl⟩ := (hiff args after).mp h
    refine ⟨o, inner, hlist, hslice, ?_, ?_, map_trim_of_blank hcut⟩
    · rw [List.length_map]
      exact hcut.length_eq charMark_eq_separates_iff
    · exact List.forall_mem_map.mpr fun piece hpiece => balanced_trim (hcut.balanced piece hpiece)
  · rintro front s rfl rfl
    exact (hvalue _).mpr (argumentsAt_append front s)

/-- An `é` takes two bytes, so offsets and places differ behind it. -/
def accentedCall : List Char := ['F', ' ', '(', 'é', ',', '(', 'a', ',', 'b', ')', ',', ')', 'x']

/-- The third argument is empty. -/
def accentedArgs : List (List Char) := [['é'], ['(', 'a', ',', 'b', ')'], []]

theorem arguments_exact_accentedCall :
    argumentsAt accentedCall 1 = .ok (some (accentedArgs, 13)) ∧
      (∃ o stop inner pieces, ListAt accentedCall 1 o stop ∧ 13 = stop + 1 ∧
        slice? accentedCall (o + 1) stop = some inner ∧ IsCut charMark ',' inner pieces ∧
        accentedArgs = pieces.map trim) ∧
      (∃ o inner, ListAt accentedCall 1 o 12 ∧ slice? accentedCall (o + 1) 12 = some inner ∧
        accentedArgs.length = (outer charMark inner).length + 1 ∧
        (∀ arg ∈ accentedArgs, IsBalanced charMark arg) ∧
        (AllBlank inner → accentedArgs = [[]])) ∧
      accentedCall = ['F'] ++ accentedCall.drop 1 ∧ (bytes ['F']).length = 1 ∧
      some (accentedArgs, 13) = (Invocation.ofText? (accentedCall.drop 1)).map fun call =>
        (call.args, 1 + (bytes call.source).length) := by
  have hvalue : argumentsAt accentedCall 1 = .ok (some (accentedArgs, 13)) := by decide
  obtain ⟨found, hfound, -, hiff, hargs, hread⟩ := arguments_exact accentedCall 1
  obtain rfl := Except.ok.inj (hvalue.symm.trans hfound)
  exact ⟨hvalue, (hiff _ _).mp rfl, hargs _ _ rfl, rfl, rfl,
    hread ['F'] (accentedCall.drop 1) rfl rfl⟩

end IslBindings.Header
