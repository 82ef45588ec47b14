import IslBindings.Proofs.Header.Cache

/-!
# Histories of a cache

Edits and calls that share a cache directory, in any order. Each file of the cache is the
expansion that one call has made, so that a call answers with the expansion of its own
sources, or with that of sources that another call has read and that are the same once their
texts are joined.
-/

namespace IslBindings.Header

open Files

/-- A search path that has its cache, if any, at a place. -/
def SharesCache (s : SearchPath) (t : Tree) (cache : Place) : Prop :=
  ∀ dir, s.cacheDir = some dir → t.target dir = cache

/-- No file of the cache is new or changed. -/
def LeavesCache (cache : Place) (t t' : Tree) : Prop :=
  ∀ name bytes, t'.node? (name :: cache) = some (.file bytes) →
    t.node? (name :: cache) = some (.file bytes)

/-- Edits and calls in turn: the calls so far, the last first, and the tree. -/
inductive History (cache : Place) : List Call → Tree → Prop
  | start {t : Tree} : (∀ name bytes, t.node? (name :: cache) ≠ some (.file bytes)) →
      History cache [] t
  | edit {calls : List Call} {t t' : Tree} : History cache calls t → LeavesCache cache t t' →
      History cache calls t'
  | call {calls : List Call} {c : Call} : History cache calls c.tree →
      SharesCache c.path c.tree cache → History cache (c :: calls) c.after

/-- The files that a key names are expansions that calls have made. -/
def Holds (cache : Place) (calls : List Call) (t : Tree) : Prop :=
  ∀ (p : Sources) (bytes : ByteArray), t.node? (p.key :: cache) = some (.file bytes) →
    ∃ d ∈ calls, ∃ q, d.sources = .ok q ∧ q.key = p.key ∧ bytes = q.expansion.toUTF8

namespace Holds

variable {cache : Place} {calls : List Call}

theorem mono {t : Tree} (h : Holds cache calls t) (c : Call) : Holds cache (c :: calls) t := by
  intro p bytes hfile
  obtain ⟨d, hd, hq⟩ := h p bytes hfile
  exact ⟨d, List.mem_cons_of_mem _ hd, hq⟩

theorem after {c : Call} (h : Holds cache calls c.tree) (hshare : SharesCache c.path c.tree cache) :
    Holds cache (c :: calls) c.after := by
  cases hdir : c.path.cacheDir with
  | none =>
    rw [(Call.run_of_none hdir).2]
    exact h.mono c
  | some dir =>
    cases hp : c.sources with
    | error e =>
      rw [Call.after_of_error hdir hp]
      exact h.mono c
    | ok p =>
      have hstores := Call.stores_after hdir hp
      rw [hshare dir hdir] at hstores
      -- What a key names was there before, or it is what this call has stored under its own key.
      intro q bytes hfile
      rcases hstores q.key bytes (q.key_ne_passingName p.key) hfile with hfile | ⟨hkey, hbytes⟩
      · exact h.mono c q bytes hfile
      · exact ⟨c, List.mem_cons_self .., p, hp, hkey.symm, hbytes⟩

/-- What a call finds at the key of its sources, another one has made. -/
theorem exists_of_readText {c : Call} {p : Sources} {dir text : String}
    (h : Holds cache calls c.tree) (hcache : c.tree.target dir = cache)
    (hread : c.tree.readText (Path.join dir p.key) = .ok text) :
    ∃ d ∈ calls, ∃ q, d.sources = .ok q ∧ q.key = p.key ∧ text = q.expansion := by
  obtain ⟨bytes, hfile, htext⟩ := Tree.node?_of_readText hread
  rw [Tree.target_join _ _ p.isName_key, hcache] at hfile
  obtain ⟨d, hd, q, hq, hkey, rfl⟩ := h p bytes hfile
  refine ⟨d, hd, q, hq, hkey, ?_⟩
  have hexpansion := Tree.fromUTF8?_toByteArray q.expansion
  rw [String.toUTF8_eq_toByteArray, hexpansion, Option.some.injEq] at htext
  exact htext.symm

end Holds

theorem History.holds {cache : Place} {calls : List Call} {t : Tree} (h : History cache calls t) :
    Holds cache calls t := by
  induction h with
  | start hnone => exact fun p bytes hfile => absurd hfile (hnone p.key bytes)
  | edit _ hleaves ih => exact fun p bytes hfile => ih p bytes (hleaves p.key bytes hfile)
  | call _ hshare ih => exact ih.after hshare

/-! ### Answers -/

/-- No two calls read sources that differ once they are joined and have one digest. -/
def DigestsApart (calls : List Call) : Prop :=
  ∀ c ∈ calls, ∀ d ∈ calls, ∀ p q : Sources, c.sources = .ok p → d.sources = .ok q →
    Digest.sha256 p.message = Digest.sha256 q.message → p.message = q.message

/-- No two calls read sources that differ and are the same once they are joined. -/
def SourcesApart (calls : List Call) : Prop :=
  ∀ c ∈ calls, ∀ d ∈ calls, ∀ p q : Sources, c.sources = .ok p → d.sources = .ok q →
    p.joined = q.joined → p = q

theorem Sources.joined_of_message {p q : Sources} (h : p.message = q.message) :
    p.joined = q.joined := by
  have htext := Digest.text_eq_of_bytes h
  rw [← String.toList_inj, String.toList_append, String.toList_append,
    List.append_cancel_left_eq, String.toList_inj] at htext
  exact htext

/-- As long as the macro headers stay as they are, no sources are mistaken for others. -/
theorem sourcesApart_of_macros {calls : List Call} {macros : List String}
    (h : ∀ c ∈ calls, ∀ p : Sources, c.sources = .ok p → p.macros = macros) :
    SourcesApart calls := by
  intro c hc d hd p q hp hq hjoined
  obtain ⟨ms, a⟩ := p
  obtain ⟨ns, b⟩ := q
  have hms : ms = macros := h c hc _ hp
  have hns : ns = macros := h d hd _ hq
  subst hms hns
  rw [Sources.joined, Sources.joined, ← String.toList_inj] at hjoined
  simp only [String.toList_join, List.flatMap_append, List.flatMap_singleton,
    List.append_cancel_left_eq, String.toList_inj] at hjoined
  rw [hjoined]

/-- A call of a history answers with the expansion of sources that one of the calls has read. -/
theorem History.exists_of_result {cache : Place} {calls : List Call} {t : Tree}
    (h : History cache calls t) {c : Call} (hc : c ∈ calls) {text : String}
    (hresult : c.result = .ok text) :
    ∃ d ∈ calls, ∃ p q, c.sources = .ok p ∧ d.sources = .ok q ∧ q.key = p.key ∧
      text = q.expansion := by
  induction h with
  | start _ => simp at hc
  | edit _ _ ih => exact ih hc
  | @call calls e hcalls hshare ih =>
    rcases List.mem_cons.mp hc with rfl | hc
    · cases hdir : c.path.cacheDir with
      | none =>
        rw [(Call.run_of_none hdir).1] at hresult
        obtain ⟨p, hp, htext⟩ := Call.exists_sources_of_uncached hresult
        exact ⟨c, List.mem_cons_self .., p, p, hp, hp, rfl, htext⟩
      | some dir =>
        obtain ⟨p, hp, hread | htext⟩ := Call.exists_of_result hdir hresult
        · -- The text was there, so that an earlier call has made it.
          obtain ⟨d, hd, q, hq, hkey, htext⟩ :=
            hcalls.holds.exists_of_readText (hshare dir hdir) hread
          exact ⟨d, List.mem_cons_of_mem _ hd, p, q, hp, hq, hkey, htext⟩
        · exact ⟨c, List.mem_cons_self .., p, p, hp, hp, rfl, htext⟩
    · obtain ⟨d, hd, hq⟩ := ih hc
      exact ⟨d, List.mem_cons_of_mem _ hd, hq⟩

/-- A call answers what one of the calls answers without a cache, for sources that are the same
once they are joined; with no other such sources in the history, it is what the call itself
answers without a cache. -/
theorem History.result_eq {cache : Place} {calls : List Call} {t : Tree}
    (h : History cache calls t) (hdigest : DigestsApart calls) {c : Call} (hc : c ∈ calls)
    {text : String} (hresult : c.result = .ok text) :
    (∃ d ∈ calls, ∃ p q, c.sources = .ok p ∧ d.sources = .ok q ∧ p.joined = q.joined ∧
        d.uncached = .ok text) ∧
      (SourcesApart calls → c.uncached = .ok text) := by
  obtain ⟨d, hd, p, q, hp, hq, hkey, rfl⟩ := h.exists_of_result hc hresult
  have hjoined : p.joined = q.joined :=
    Sources.joined_of_message (hdigest c hc d hd p q hp hq hkey.symm)
  refine ⟨⟨d, hd, p, q, hp, hq, hjoined, Call.uncached_of_sources hq⟩, fun hapart => ?_⟩
  rw [Call.uncached_of_sources hp, hapart c hc d hd p q hp hq hjoined]

/-! ### A macro header and a header -/

def samplePath : SearchPath where
  dirs := ["."]
  cacheDir := some "cache"
  macroHeaders := ["m.h"]

/-- A call behind an edit of the macro header and of the header. -/
def sampleCall (t : Tree) (macros header : String) : Call where
  path := samplePath
  header := "a.h"
  tree := { (t.put ["m.h"] (.file macros.toUTF8)).put ["a.h"] (.file header.toUTF8) with here := [] }

theorem History.concat_sampleCall {calls : List Call} {t : Tree} (h : History ["cache"] calls t)
    (macros header : String) :
    History ["cache"] (sampleCall t macros header :: calls) (sampleCall t macros header).after := by
  have hleaves : LeavesCache ["cache"] t (sampleCall t macros header).tree := by
    intro name bytes hfile
    have hput : ((t.put ["m.h"] (.file macros.toUTF8)).put ["a.h"] (.file header.toUTF8)).node?
        [name, "cache"] = some (.file bytes) := hfile
    rwa [Tree.node?_put_of_ne _ _ (by simp), Tree.node?_put_of_ne _ _ (by simp)] at hput
  refine History.call (h.edit hleaves) fun dir hdir => ?_
  cases hdir
  rfl

theorem history_empty : History ["cache"] [] (.empty []) :=
  History.start fun name bytes hfile => by
    have hnone : (Tree.empty []).node? [name, "cache"] = none := rfl
    rw [hnone] at hfile
    cases hfile

theorem mem_of_sources {calls : List Call} {ps : List Sources}
    (h : calls.map (·.sources.toOption) = ps.map some) {c : Call} (hc : c ∈ calls) {p : Sources}
    (hp : c.sources = .ok p) : p ∈ ps := by
  have hmem : some p ∈ calls.map (·.sources.toOption) :=
    List.mem_map.mpr ⟨c, hc, by rw [hp]; rfl⟩
  rw [h] at hmem
  obtain ⟨q, hq, heq⟩ := List.mem_map.mp hmem
  rw [← Option.some.inj heq]
  exact hq

def sourcesF : Sources := ⟨["#define X\n"], "int isl_a_f(int x);\n"⟩

def sourcesG : Sources := ⟨["#define X\n"], "int isl_a_g(int x);\n"⟩

def firstCall : Call := sampleCall (.empty []) "#define X\n" "int isl_a_f(int x);\n"

def secondCall : Call := sampleCall firstCall.after "#define X\n" "int isl_a_g(int x);\n"

/-- The header is again as it was at the first call. -/
def thirdCall : Call := sampleCall secondCall.after "#define X\n" "int isl_a_f(int x);\n"

theorem History.result_eq_third :
    thirdCall.result = .ok "int isl_a_f(int x);\n" ∧
      thirdCall.uncached = .ok "int isl_a_f(int x);\n" := by
  have hhistory : History ["cache"] [thirdCall, secondCall, firstCall] thirdCall.after :=
    ((history_empty.concat_sampleCall _ _).concat_sampleCall _ _).concat_sampleCall _ _
  have hsources : [thirdCall, secondCall, firstCall].map (·.sources.toOption) =
      [sourcesF, sourcesG, sourcesF].map some := by
    decide +kernel
  have hresult : thirdCall.result = .ok "int isl_a_f(int x);\n" :=
    eq_ok_of_toOption (by decide +kernel)
  have hne : Digest.sha256 sourcesF.message ≠ Digest.sha256 sourcesG.message := by decide +kernel
  have hcases : ∀ p ∈ [sourcesF, sourcesG, sourcesF], p = sourcesF ∨ p = sourcesG := by decide
  have hdigest : DigestsApart [thirdCall, secondCall, firstCall] := by
    intro c hc d hd p q hp hq hkey
    rcases hcases p (mem_of_sources hsources hc hp) with rfl | rfl
    · rcases hcases q (mem_of_sources hsources hd hq) with rfl | rfl
      · rfl
      · exact absurd hkey hne
    · rcases hcases q (mem_of_sources hsources hd hq) with rfl | rfl
      · exact absurd hkey.symm hne
      · rfl
  have hmacros : ∀ c ∈ [thirdCall, secondCall, firstCall], ∀ p : Sources, c.sources = .ok p →
      p.macros = ["#define X\n"] := by
    intro c hc p hp
    rcases hcases p (mem_of_sources hsources hc hp) with rfl | rfl
    · rfl
    · rfl
  have hanswer := hhistory.result_eq hdigest (List.mem_cons_self ..) hresult
  exact ⟨hresult, hanswer.2 (sourcesApart_of_macros hmacros)⟩

/-- A prototype that stands in the macro header, behind its macro. -/
def callBefore : Call :=
  sampleCall (.empty []) "#define X\nint isl_a_f(int x);\n" "int isl_a_g(int x);\n"

/-- The prototype has moved to the start of the header. -/
def callBehind : Call :=
  sampleCall callBefore.after "#define X\n" "int isl_a_f(int x);\nint isl_a_g(int x);\n"

/-- Text that moves from one file to the next one leaves the key as it is. -/
theorem History.result_of_moved_text :
    History ["cache"] [callBehind, callBefore] callBehind.after ∧
      DigestsApart [callBehind, callBefore] ∧
      callBehind.result = .ok "int isl_a_g(int x);\n" ∧
      callBehind.uncached = .ok "int isl_a_f(int x);\nint isl_a_g(int x);\n" := by
  have hsources : [callBehind, callBefore].map (·.sources.toOption) =
      [(⟨["#define X\n"], "int isl_a_f(int x);\nint isl_a_g(int x);\n"⟩ : Sources),
        ⟨["#define X\nint isl_a_f(int x);\n"], "int isl_a_g(int x);\n"⟩].map some := by
    decide +kernel
  refine ⟨(history_empty.concat_sampleCall _ _).concat_sampleCall _ _, ?_,
    eq_ok_of_toOption (by decide +kernel), eq_ok_of_toOption (by decide +kernel)⟩
  intro c hc d hd p q hp hq _
  have hjoined : ∀ p ∈ [(⟨["#define X\n"], "int isl_a_f(int x);\nint isl_a_g(int x);\n"⟩ : Sources),
      ⟨["#define X\nint isl_a_f(int x);\n"], "int isl_a_g(int x);\n"⟩],
      p.joined = "#define X\nint isl_a_f(int x);\nint isl_a_g(int x);\n" := by
    decide
  rw [Sources.message, Sources.message, hjoined p (mem_of_sources hsources hc hp),
    hjoined q (mem_of_sources hsources hd hq)]

end IslBindings.Header
