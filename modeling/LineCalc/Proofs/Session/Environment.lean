import LineCalc.Binary64.Basic

/-!
# Environments

An environment lists variables with their values in the order in which the names
were first defined.  It is what a session stores, with the memory left out: the
place of a name in the list decides its address, and never changes.
-/

namespace LineCalc

abbrev Environment := List (String × Binary64)

namespace Environment

def names (environment : Environment) : List String :=
  environment.map Prod.fst

theorem length_names (environment : Environment) :
    environment.names.length = environment.length :=
  List.length_map Prod.fst

def place (environment : Environment) (name : String) : Nat :=
  environment.findIdx (fun entry => entry.1 == name)

def define : Environment -> String -> Binary64 -> Environment
  | [], name, value => [(name, value)]
  | entry :: rest, name, value =>
      if entry.1 = name then
        (name, value) :: rest
      else
        entry :: define rest name value

/-!
## Places
-/

theorem place_cons (entry : String × Binary64) (rest : Environment)
    (name : String) :
    place (entry :: rest) name = if entry.1 =
      name then 0 else place rest name + 1 := by
  unfold place
  rw [List.findIdx_cons]
  by_cases hname : entry.1 = name
  · simp [hname]
  · rw [beq_eq_false_iff_ne.mpr hname, if_neg hname]
    rfl

theorem place_of_notMem {environment : Environment} {name : String}
    (h : name ∉ environment.names) :
    environment.place name = environment.length := by
  induction environment with
  | nil => rfl
  | cons entry rest ih =>
      have hne : entry.1 ≠ name := by
        intro heq
        exact h (by simp [names, heq])
      have hrest : name ∉ names rest := by
        intro hmem
        exact h (List.mem_cons_of_mem _ hmem)
      rw [place_cons, if_neg hne, ih hrest, List.length_cons]

theorem place_of_getElem? {environment : Environment} {i : Nat} {name : String}
    (hnames : environment.names.Nodup) (h : environment.names[i]? = some name) :
    environment.place name = i := by
  induction environment generalizing i with
  | nil => simp [names] at h
  | cons entry rest ih =>
      rcases List.nodup_cons.mp hnames with ⟨hfirst, hrest⟩
      rw [place_cons]
      cases i with
      | zero =>
          have hname : entry.1 = name := by simpa [names] using h
          rw [if_pos hname]
      | succ i =>
          have htail : (names rest)[i]? = some name := by simpa [names] using h
          have hne : entry.1 ≠ name := by
            intro heq
            apply hfirst
            rw [heq]
            exact List.mem_of_getElem? htail
          rw [if_neg hne, ih hrest htail]

/-!
## Definitions
-/

theorem getElem?_define (environment : Environment) (name : String)
    (value : Binary64) (i : Nat) :
    (environment.define name value)[i]? =
      if i = environment.place name then
        some (name, value)
      else
        environment[i]? := by
  induction environment generalizing i with
  | nil =>
      cases i with
      | zero => rfl
      | succ i => rfl
  | cons entry rest ih =>
      rw [place_cons]
      by_cases hname : entry.1 = name
      · rw [define, if_pos hname, if_pos hname]
        cases i with
        | zero => rfl
        | succ i => simp
      · rw [define, if_neg hname, if_neg hname]
        cases i with
        | zero => simp
        | succ i => simpa using ih i

theorem names_define (environment : Environment) (name : String)
    (value : Binary64) :
    (environment.define name value).names =
      if name ∈ environment.names then
        environment.names
      else
        environment.names ++ [name] := by
  induction environment with
  | nil => simp [define, names]
  | cons entry rest ih =>
      by_cases hname : entry.1 = name
      · simp [define, names, hname]
      · have hne : name ≠ entry.1 := Ne.symm hname
        unfold names at ih ⊢
        simp only [define, hname, ↓reduceIte, List.map_cons, ih, List.mem_cons,
          hne, false_or]
        split <;> rfl

theorem place_define (environment : Environment) (name : String)
    (value : Binary64) :
    (environment.define name value).place name = environment.place name := by
  induction environment with
  | nil => simp [define, place]
  | cons entry rest ih =>
      by_cases hname : entry.1 = name
      · rw [define, if_pos hname, place_cons, place_cons,
          if_pos rfl, if_pos hname]
      · rw [define, if_neg hname, place_cons, place_cons, if_neg hname,
          if_neg hname, ih]

theorem length_define (environment : Environment) (name : String)
    (value : Binary64) :
    (environment.define name value).length =
      if name ∈ environment.names then
        environment.length
      else
        environment.length + 1 := by
  rw [← length_names, names_define, ← length_names environment]
  split
  · rfl
  · rw [List.length_append, List.length_singleton]

theorem nodup_names_define {environment : Environment} (name : String)
    (value : Binary64) (h : environment.names.Nodup) :
    (environment.define name value).names.Nodup := by
  rw [names_define]
  split
  · exact h
  · rename_i hfresh
    apply List.nodup_append.mpr
    refine ⟨h, by simp, ?_⟩
    intro other hother last hlast
    rw [List.mem_singleton.mp hlast]
    intro heq
    exact hfresh (heq ▸ hother)

theorem lookup_cons (entry : String × Binary64) (rest : Environment)
    (name : String) :
    List.lookup name (entry :: rest) =
      if entry.1 = name then some entry.2 else rest.lookup name := by
  rw [List.lookup_cons]
  by_cases hname : entry.1 = name
  · simp [hname]
  · rw [beq_eq_false_iff_ne.mpr (Ne.symm hname), if_neg hname]

theorem lookup_define (environment : Environment) (name other : String)
    (value : Binary64) :
    (environment.define name value).lookup other =
      if other = name then some value else environment.lookup other := by
  induction environment with
  | nil =>
      rw [define, lookup_cons]
      simp only [eq_comm]
  | cons entry rest ih =>
      by_cases hname : entry.1 = name
      · rw [define, if_pos hname, lookup_cons, lookup_cons, hname]
        by_cases hother : other = name
        · simp [hother]
        · simp [hother, Ne.symm hother]
      · rw [define, if_neg hname, lookup_cons, lookup_cons, ih]
        by_cases hother : entry.1 = other
        · have hne : other ≠ name := hother ▸ hname
          rw [if_pos hother, if_pos hother, if_neg hne]
        · rw [if_neg hother, if_neg hother]

theorem lookup_eq_getElem?_place (environment : Environment) (name : String) :
    environment.lookup name =
      (environment[environment.place name]?).map Prod.snd := by
  induction environment with
  | nil => rfl
  | cons entry rest ih =>
      rw [lookup_cons, place_cons]
      by_cases hname : entry.1 = name
      · simp [hname]
      · rw [if_neg hname, if_neg hname, ih, List.getElem?_cons_succ]

theorem entry_of_getElem? {environment : Environment} {i : Nat} {name : String}
    (hnames : environment.names.Nodup) (h : environment.names[i]? = some name) :
    exists value, environment.lookup name = some value ∧
      environment[i]? = some (name, value) := by
  have hplace := place_of_getElem? hnames h
  rw [names, List.getElem?_map] at h
  rcases Option.map_eq_some_iff.mp h with ⟨entry, hentry, rfl⟩
  refine ⟨entry.2, ?_, hentry⟩
  rw [lookup_eq_getElem?_place, hplace, hentry]
  rfl

theorem lookup_eq_none_iff (environment : Environment) (name : String) :
    environment.lookup name = none <-> name ∉ environment.names := by
  rw [List.lookup_eq_none_iff, names]
  constructor
  · intro h hmem
    rcases List.mem_map.mp hmem with ⟨entry, hentry, hname⟩
    have hdiffers := h entry hentry
    simp [hname] at hdiffers
  · intro h entry hentry
    have hdiffers : name ≠ entry.1 := by
      intro heq
      exact h (heq ▸ List.mem_map_of_mem hentry)
    simp [hdiffers]

theorem lookup_isSome_iff (environment : Environment) (name : String) :
    (environment.lookup name).isSome = true <-> name ∈ environment.names := by
  rw [Option.isSome_iff_ne_none, ne_eq, lookup_eq_none_iff, Decidable.not_not]

theorem lookup_mapIdx_names (environment : Environment) (base : Nat)
    (name : String) :
    (environment.names.mapIdx fun i bound => (bound, base + i)).lookup name =
      if name ∈ environment.names then
        some (base + environment.place name)
      else
        none := by
  induction environment generalizing base with
  | nil => rfl
  | cons entry rest ih =>
      have hnames : names (entry :: rest) = entry.1 :: names rest := rfl
      have htail : (fun i (bound : String) => (bound, base + (i + 1))) =
          fun i bound => (bound, base + 1 + i) := by
        funext i bound
        rw [Nat.add_assoc, Nat.add_comm 1]
      rw [hnames, List.mapIdx_cons, List.lookup_cons, place_cons, htail, ih]
      by_cases hname : entry.1 = name
      · simp [hname]
      · have hne : name ≠ entry.1 := Ne.symm hname
        simp only [beq_eq_false_iff_ne.mpr hne, List.mem_cons, hne,
          false_or, if_neg hname]
        congr 2
        omega

end Environment

end LineCalc
