import IslBindings.Generation
import IslBindings.Proofs.Lists

/-!
# The entries of a run

A run goes through the classes of the catalogue that the release has, in their order, and
through the methods of each in the order of their declarations. Every one of them gets an
entry, with the verdict that its class gives it.
-/

namespace IslBindings

/-! ### Entries -/

def Registry.offered (r : Registry) (release : Option Nat) (classes : List String) : List Method :=
  (classes.filter (Catalogue.isAvailable · release)).flatMap r.methodsOf

theorem Registry.cls_of_mem_methodsOf {r : Registry} {cls : String} {m : Method}
    (h : m ∈ r.methodsOf cls) : m.cls = cls :=
  beq_iff_eq.mp (List.mem_filter.mp h).2

/-- The verdict of an entry is the one that the class of its method gives. -/
def Entry.IsDecided (r : Registry) (e : Entry) : Prop :=
  e.method.verdict? (r.methodsOf e.method.cls) = some e.verdict

namespace Entry

theorem of_ofMethod {siblings : List Method} {m : Method} {e : Entry}
    (h : ofMethod siblings m = .ok e) : e.method = m ∧ m.verdict? siblings = some e.verdict := by
  simp only [ofMethod] at h
  split at h
  · next v hv =>
    cases h
    exact ⟨rfl, hv⟩
  · cases h

theorem of_ofClass {r : Registry} {cls : String} {es : List Entry} (h : ofClass r cls = .ok es) :
    es.map (·.method) = r.methodsOf cls ∧ ∀ e ∈ es, e.IsDecided r := by
  refine ⟨?_, fun e he => ?_⟩
  · have hmap := map_of_mapM (g := id) (fun m _ e he => (of_ofMethod he).1) h
    rwa [List.map_id] at hmap
  · obtain ⟨m, hm, hof⟩ := exists_of_mem_mapM h he
    obtain ⟨rfl, hverdict⟩ := of_ofMethod hof
    have hcls : e.method.cls = cls := Registry.cls_of_mem_methodsOf hm
    rw [IsDecided, hcls]
    exact hverdict

theorem of_ofClasses {r : Registry} {release : Option Nat} {classes : List String}
    {es : List Entry} (h : ofClasses r release classes = .ok es) :
    es.map (·.method) = r.offered release classes ∧ ∀ e ∈ es, e.IsDecided r := by
  obtain ⟨ess, hrun, rfl⟩ := exists_of_map_ok h
  refine ⟨?_, fun e he => ?_⟩
  · have hmap := map_of_mapM (fun c _ es hes => (of_ofClass hes).1) hrun
    rw [List.map_flatten, Registry.offered, List.flatMap_def]
    exact congrArg List.flatten hmap
  · obtain ⟨es, hes, he⟩ := List.mem_flatten.mp he
    obtain ⟨c, -, hc⟩ := exists_of_mem_mapM hrun hes
    exact (of_ofClass hc).2 e he

end Entry

/-! ### Parts -/

theorem Part.of_generate {r : Registry} {release : Option Nat} {l l' : Ledger} {name : String}
    {classes : List String} {p : Part} (h : generate r release l name classes = .ok (p, l')) :
    p.name = name ∧ p.entries.map (·.method) = r.offered release classes ∧
      ∀ e ∈ p.entries, e.IsDecided r := by
  obtain ⟨es, hes, h⟩ := exists_of_bind_ok h
  cases h
  exact ⟨rfl, Entry.of_ofClasses hes⟩

theorem Part.of_generateAll {r : Registry} {release : Option Nat} {l : Ledger}
    {specs : List (String × List String)} {ps : List Part}
    (h : generateAll r release l specs = .ok ps) :
    ps.map (fun p => (p.name, p.entries.map (·.method))) =
        specs.map (fun s => (s.1, r.offered release s.2)) ∧
      ∀ p ∈ ps, ∀ e ∈ p.entries, e.IsDecided r := by
  induction specs generalizing l ps with
  | nil =>
    cases h
    exact ⟨rfl, by simp⟩
  | cons s specs ih =>
    obtain ⟨name, classes⟩ := s
    obtain ⟨⟨p, l'⟩, hp, h⟩ := exists_of_bind_ok h
    obtain ⟨rest, hrest, h⟩ := exists_of_bind_ok h
    cases h
    obtain ⟨hname, hmethods, hdecided⟩ := of_generate hp
    obtain ⟨hmap, hall⟩ := ih hrest
    refine ⟨?_, List.forall_mem_cons.mpr ⟨hdecided, hall⟩⟩
    rw [List.map_cons, List.map_cons, hmap, hname, hmethods]

theorem Output.of_ofRegistry {r : Registry} {release : Option Nat} {o : Output}
    (h : ofRegistry r release = .ok o) :
    o.parts.map (fun p => (p.name, p.entries.map (·.method))) =
        Catalogue.parts.map (fun s => (s.1, r.offered release s.2)) ∧
      ∀ p ∈ o.parts, ∀ e ∈ p.entries, e.IsDecided r := by
  obtain ⟨ps, hps, h⟩ := exists_of_bind_ok h
  cases h
  exact Part.of_generateAll hps

theorem Output.names_parts {r : Registry} {release : Option Nat} {o : Output}
    (h : ofRegistry r release = .ok o) : o.parts.map (·.name) = Catalogue.parts.map (·.1) := by
  have hnames := congrArg (List.map Prod.fst) (of_ofRegistry h).1
  rwa [List.map_map, List.map_map] at hnames

end IslBindings
