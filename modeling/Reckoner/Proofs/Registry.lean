import Mathlib.Data.Finset.Card
import Reckoner.Proofs.Index
import Reckoner.Registry

/-!
What registrations make of an empty registry.

The index of the names and the list of the functions are written at the same time, and each of them
tells what the other one holds: this is the invariant `Coherent`, and whatever is said about handles
rests on it.

A history of registrations decides everything that can be found: the functions stand in the order in
which their names were first registered, each with the description that was registered last, and a
symbol denotes the place of the function that was the last to bring it. `Follows` says so, one
registration keeps it, and a history is kept up with from the first registration on.
-/
namespace Reckoner

namespace Registry

variable {r : Registry} {f g : NamedFunction} {fs : List NamedFunction} {name symbol : String}
  {id : FunctionId}

/-! ## The index of the names -/

/-- The name of the function at a place. -/
def nameAt? (r : Registry) (id : FunctionId) : Option String :=
  (r.get? id).map NamedFunction.name

/-- The index finds a name exactly at the place of the function with that name. -/
def Coherent (r : Registry) : Prop :=
  Indexes r.byName r.nameAt?

theorem coherent_empty : Coherent {} :=
  indexes_nil fun _ => rfl

theorem nameAt?_eq_some_iff : r.nameAt? id = some name ↔ ∃ f, r.get? id = some f ∧ f.name = name :=
  Option.map_eq_some_iff

theorem Coherent.findByName?_eq_some_iff (h : r.Coherent) :
    r.findByName? name = some id ↔ ∃ f, r.get? id = some f ∧ f.name = name :=
  (h name id).trans nameAt?_eq_some_iff

/-- The function that a name denotes has that name. -/
theorem Coherent.exists_get? (h : r.Coherent) (hfind : r.findByName? name = some id) :
    ∃ f, r.get? id = some f ∧ f.name = name :=
  h.findByName?_eq_some_iff.1 hfind

theorem get?_size (r : Registry) : r.get? r.size = none :=
  List.getElem?_eq_none (Nat.le_refl _)

theorem lt_size_of_get? (h : r.get? id = some f) : id < r.size :=
  (List.getElem?_eq_some_iff.1 h).1

/-! ## One registration -/

/-- A registration takes the place of its name, or the next free one. -/
theorem placeOf_cases (r : Registry) (f : NamedFunction) :
    r.findByName? f.name = some (r.placeOf f) ∨
      r.findByName? f.name = none ∧ r.placeOf f = r.size := by
  unfold placeOf
  cases r.findByName? f.name with
  | some id => exact .inl rfl
  | none => exact .inr ⟨rfl, rfl⟩

theorem functions_register_of_eq_none (h : r.findByName? f.name = none) :
    (r.register f).functions = r.functions ++ [f] := by
  simp [register, placeOf, h]

theorem Coherent.functions_register_of_eq_some (h : r.Coherent)
    (hfind : r.findByName? f.name = some id) :
    (r.register f).functions = r.functions.set id f := by
  obtain ⟨g, hget, -⟩ := h.exists_get? hfind
  have hne : id ≠ r.size := Nat.ne_of_lt (lt_size_of_get? hget)
  simp [register, placeOf, hfind, hne]

/-- A registered function stands at its place. -/
theorem Coherent.get?_register (h : r.Coherent) (f : NamedFunction) :
    (r.register f).get? (r.placeOf f) = some f := by
  rcases r.placeOf_cases f with hold | ⟨hnew, hplace⟩
  · obtain ⟨g, hget, -⟩ := h.exists_get? hold
    rw [get?, h.functions_register_of_eq_some hold]
    exact List.getElem?_set_self (lt_size_of_get? hget)
  · rw [get?, functions_register_of_eq_none hnew, hplace]
    exact List.getElem?_concat_length

/-- Every other place is left as it is. -/
theorem get?_register_of_ne (r : Registry) (f : NamedFunction) (h : id ≠ r.placeOf f) :
    (r.register f).get? id = r.get? id := by
  by_cases hp : r.placeOf f = r.size
  · have hid : id ≠ r.functions.length := fun he => h (he.trans hp.symm)
    simp only [register, get?, hp, if_true]
    exact getElem?_concat_of_ne hid
  · simp only [register, get?, hp, if_false]
    exact List.getElem?_set_ne (Ne.symm h)

/-- One registration writes the same into the index and into the list. -/
theorem Coherent.register (h : r.Coherent) (f : NamedFunction) : (r.register f).Coherent := by
  refine Indexes.insert h ?_ ?_ fun j hj => ?_
  · rcases r.placeOf_cases f with hold | ⟨hnew, hplace⟩
    · exact .inl hold
    · refine .inr ⟨hnew, ?_⟩
      rw [nameAt?, hplace, get?_size, Option.map_none]
  · rw [nameAt?, h.get?_register f, Option.map_some]
  · rw [nameAt?, nameAt?, get?_register_of_ne r f hj]

theorem Coherent.registerAll (h : r.Coherent) (fs : List NamedFunction) :
    (r.registerAll fs).Coherent := by
  induction fs generalizing r with
  | nil => exact h
  | cons f fs ih => exact ih (h.register f)

/-- What stands in a registry stays there. -/
theorem Coherent.isSome_get?_register (h : r.Coherent) (hid : (r.get? id).isSome = true)
    (f : NamedFunction) : ((r.register f).get? id).isSome = true := by
  by_cases hplace : id = r.placeOf f
  · rw [hplace, h.get?_register]
    rfl
  · rw [get?_register_of_ne r f hplace]
    exact hid

/-- What stands in the registry afterwards has been registered just now or stood there under another
name. -/
theorem Coherent.get?_register_cases (h : r.Coherent) (hget : (r.register f).get? id = some g) :
    g = f ∨ r.get? id = some g ∧ g.name ≠ f.name := by
  by_cases hid : id = r.placeOf f
  · rw [hid, h.get?_register] at hget
    exact .inl (Option.some.inj hget).symm
  · rw [get?_register_of_ne r f hid] at hget
    refine .inr ⟨hget, fun hname => hid ?_⟩
    have hfind : r.findByName? f.name = some id := h.findByName?_eq_some_iff.2 ⟨g, hget, hname⟩
    rw [placeOf, hfind, Option.getD_some]

/-- A registered name has the place that its registration has given. -/
theorem findByName?_register_self (r : Registry) (f : NamedFunction) :
    (r.register f).findByName? f.name = some (r.placeOf f) :=
  List.lookup_cons_self

/-- A name keeps its place. -/
theorem findByName?_register_of_eq_some (h : r.findByName? name = some id) (f : NamedFunction) :
    (r.register f).findByName? name = some id := by
  by_cases hname : name = f.name
  · subst hname
    rw [findByName?_register_self, placeOf, h, Option.getD_some]
  · rw [findByName?, register, List.lookup_cons, beq_false_of_ne hname]
    exact h

/-- A symbol that a registration brings denotes its place, and every other symbol what it did. -/
theorem findBySymbol?_register (r : Registry) (f : NamedFunction) (symbol : String) :
    (r.register f).findBySymbol? symbol =
      if indexedSymbol? f = some symbol then some (r.placeOf f) else r.findBySymbol? symbol := by
  cases hsymbol : indexedSymbol? f with
  | none => simp [register, findBySymbol?, hsymbol]
  | some other =>
      by_cases heq : other = symbol
      · simp [register, findBySymbol?, hsymbol, heq]
      · have hne : (symbol == other) = false := by simpa using Ne.symm heq
        simp [register, findBySymbol?, hsymbol, heq, List.lookup_cons, hne]

theorem indexedSymbol?_eq_some_iff :
    indexedSymbol? f = some symbol ↔ f.symbol = some symbol ∧ f.fixity ≠ .prefixOp := by
  unfold indexedSymbol?
  split
  · next h => simp [h]
  · next h => simp [h]

/-! ## The names in their order -/

/-- The names of the functions, by place. -/
def names (r : Registry) : List String :=
  r.functions.map NamedFunction.name

theorem names_getElem? (r : Registry) (id : FunctionId) : r.names[id]? = r.nameAt? id :=
  List.getElem?_map

theorem Coherent.isSome_findByName?_iff (h : r.Coherent) :
    (r.findByName? name).isSome = true ↔ name ∈ r.names := by
  rw [findByName?, h.isSome_lookup_iff, List.mem_iff_getElem?]
  simp only [names_getElem?]

theorem Coherent.nodup_names (h : r.Coherent) : r.names.Nodup := by
  rw [List.nodup_iff_getElem?_ne_getElem?]
  intro i j hlt hj heq
  have hi : i < r.names.length := Nat.lt_trans hlt hj
  have hname : r.nameAt? i = some r.names[i] := by
    rw [← names_getElem?, List.getElem?_eq_getElem hi]
  refine Nat.ne_of_lt hlt (h.eq_of_eq_some hname ?_)
  rw [← names_getElem?, ← heq, names_getElem?, hname]

/-- A registration adds its name at the end unless it is there. -/
theorem Coherent.names_register (h : r.Coherent) (f : NamedFunction) :
    (r.register f).names = if f.name ∈ r.names then r.names else r.names ++ [f.name] := by
  cases hfind : r.findByName? f.name with
  | none =>
      have hnew : f.name ∉ r.names := by simp [← h.isSome_findByName?_iff, hfind]
      rw [if_neg hnew, names, functions_register_of_eq_none hfind, List.map_append]
      rfl
  | some i =>
      have hold : f.name ∈ r.names := by simp [← h.isSome_findByName?_iff, hfind]
      have hi : r.names[i]? = some f.name := by rw [names_getElem?, (h f.name i).1 hfind]
      obtain ⟨hlt, heq⟩ := List.getElem?_eq_some_iff.1 hi
      rw [if_pos hold, names, h.functions_register_of_eq_some hfind, List.map_set, ← heq]
      exact List.set_getElem_self hlt

/-! ## Histories of registrations -/

/-- The description that was registered last under a name. -/
def latest? (fs : List NamedFunction) (name : String) : Option NamedFunction :=
  fs.reverse.find? fun f => f.name == name

/-- The description registered last among those that bring a symbol. -/
def latestWith? (fs : List NamedFunction) (symbol : String) : Option NamedFunction :=
  fs.reverse.find? fun f => indexedSymbol? f == some symbol

theorem latest?_concat (fs : List NamedFunction) (f : NamedFunction) (name : String) :
    latest? (fs ++ [f]) name = if f.name = name then some f else latest? fs name := by
  by_cases h : f.name = name <;> simp [latest?, h]

theorem latestWith?_concat (fs : List NamedFunction) (f : NamedFunction) (symbol : String) :
    latestWith? (fs ++ [f]) symbol =
      if indexedSymbol? f = some symbol then some f else latestWith? fs symbol := by
  by_cases h : indexedSymbol? f = some symbol <;> simp [latestWith?, h]

theorem mem_of_latestWith? (h : latestWith? fs symbol = some f) : f ∈ fs :=
  List.mem_reverse.1 (List.mem_of_find?_eq_some h)

theorem eraseDups_concat (names : List String) (name : String) :
    (names ++ [name]).eraseDups =
      if name ∈ names then names.eraseDups else names.eraseDups ++ [name] := by
  rw [List.eraseDups_append]
  by_cases h : name ∈ names
  · simp [List.removeAll, h]
  · simp [List.removeAll, h, List.eraseDups_cons]

/-- The registry is what the history of registrations makes of an empty one. -/
structure Follows (fs : List NamedFunction) (r : Registry) : Prop where
  coherent : r.Coherent
  names : r.names = (fs.map NamedFunction.name).eraseDups
  latest : ∀ {id f}, r.get? id = some f → latest? fs f.name = some f
  symbol : ∀ symbol, r.findBySymbol? symbol =
    (latestWith? fs symbol).bind fun f => r.findByName? f.name

theorem follows_empty : Follows [] {} where
  coherent := coherent_empty
  names := rfl
  latest := nofun
  symbol := fun _ => rfl

theorem Follows.mem_names_iff (h : Follows fs r) :
    name ∈ r.names ↔ ∃ f ∈ fs, f.name = name := by
  rw [h.names, List.mem_eraseDups, List.mem_map]

/-- One more registration. -/
theorem Follows.register (h : Follows fs r) (f : NamedFunction) :
    Follows (fs ++ [f]) (r.register f) where
  coherent := h.coherent.register f
  names := by
    have hmem : f.name ∈ r.names ↔ f.name ∈ fs.map NamedFunction.name := by
      rw [h.names, List.mem_eraseDups]
    rw [h.coherent.names_register, List.map_append, List.map_singleton, eraseDups_concat, ← h.names]
    simp only [hmem]
  latest := by
    intro id g hg
    rw [latest?_concat]
    rcases h.coherent.get?_register_cases hg with rfl | ⟨hold, hne⟩
    · exact if_pos rfl
    · rw [if_neg (Ne.symm hne)]
      exact h.latest hold
  symbol := by
    intro symbol
    rw [findBySymbol?_register, latestWith?_concat]
    split
    · exact (findByName?_register_self r f).symm
    · rw [h.symbol]
      cases hlatest : latestWith? fs symbol with
      | none => rfl
      | some g =>
          -- The name of an earlier registration has its place already.
          have hname : (r.findByName? g.name).isSome = true :=
            h.coherent.isSome_findByName?_iff.2
              (h.mem_names_iff.2 ⟨g, mem_of_latestWith? hlatest, rfl⟩)
          obtain ⟨id, hid⟩ := Option.isSome_iff_exists.1 hname
          simp only [Option.bind_some, hid, findByName?_register_of_eq_some hid f]

theorem Follows.registerAll (h : Follows fs r) (gs : List NamedFunction) :
    Follows (fs ++ gs) (r.registerAll gs) := by
  induction gs generalizing fs r with
  | nil =>
      rw [List.append_nil]
      exact h
  | cons g gs ih =>
      rw [List.append_cons]
      exact ih (h.register g)

theorem follows_registerAll (fs : List NamedFunction) : Follows fs (registerAll {} fs) :=
  follows_empty.registerAll fs

theorem registerAll_append (r : Registry) (fs gs : List NamedFunction) :
    r.registerAll (fs ++ gs) = (r.registerAll fs).registerAll gs :=
  List.foldl_append

/-! ## Handles -/

/-- What stands at a place found by name when the history is over. -/
theorem Follows.latest_of_findByName? (h : Follows fs r) (hfind : r.findByName? name = some id) :
    ∃ f, r.get? id = some f ∧ f.name = name ∧ latest? fs name = some f := by
  obtain ⟨f, hget, rfl⟩ := h.coherent.exists_get? hfind
  exact ⟨f, hget, rfl, h.latest hget⟩

/-- The functions in order: that of their first registrations, each as it was registered last. -/
theorem Follows.map_functions (h : Follows fs r) :
    r.functions.map some = (fs.map NamedFunction.name).eraseDups.map (latest? fs) := by
  have hlatest : ∀ f ∈ r.functions, some f = latest? fs f.name := by
    intro f hf
    obtain ⟨i, hi⟩ := List.mem_iff_getElem?.1 hf
    have hget : r.get? i = some f := hi
    exact (h.latest hget).symm
  rw [← h.names, Registry.names, List.map_map]
  exact List.map_congr_left hlatest

/-- There are as many functions as there are names. -/
theorem Follows.size_eq (h : Follows fs r) :
    r.size = (fs.map NamedFunction.name).toFinset.card := by
  have hset : r.names.toFinset = (fs.map NamedFunction.name).toFinset := by
    rw [h.names]
    ext name
    rw [List.mem_toFinset, List.mem_toFinset, List.mem_eraseDups]
  rw [← hset, List.toFinset_card_of_nodup h.coherent.nodup_names, Registry.names, List.length_map]
  rfl

theorem findByName?_registerAll (h : r.findByName? name = some id) (fs : List NamedFunction) :
    (r.registerAll fs).findByName? name = some id := by
  induction fs generalizing r with
  | nil => exact h
  | cons f fs ih => exact ih (findByName?_register_of_eq_some h f)

/-- A search or a registration has returned `id` for the name, in the course of the history. -/
inductive Returned : List NamedFunction → String → FunctionId → Prop
  | found {fs : List NamedFunction} {name : String} {id : FunctionId}
      (h : (registerAll {} fs).findByName? name = some id) : Returned fs name id
  | registered (fs : List NamedFunction) (f : NamedFunction) :
      Returned (fs ++ [f]) f.name ((registerAll {} fs).placeOf f)

theorem Returned.findByName? (h : Returned fs name id) :
    (registerAll {} fs).findByName? name = some id := by
  cases h with
  | found h => exact h
  | registered fs f =>
      rw [registerAll_append]
      exact findByName?_register_self _ f

/-- What has been returned for a name once is returned for it ever after, by searches and by
registrations. -/
theorem Returned.stable (h : Returned fs name id) (gs : List NamedFunction) :
    (registerAll {} (fs ++ gs)).findByName? name = some id ∧
      ∀ g, g.name = name → (registerAll {} (fs ++ gs)).placeOf g = id := by
  have hfind : (registerAll {} (fs ++ gs)).findByName? name = some id := by
    rw [registerAll_append]
    exact findByName?_registerAll h.findByName? gs
  refine ⟨hfind, ?_⟩
  rintro g rfl
  rw [placeOf, hfind, Option.getD_some]

/-! ## What a symbol denotes -/

theorem latest?_append_cons (before after : List NamedFunction) (f : NamedFunction) :
    latest? (before ++ f :: after) f.name = (latest? after f.name).or (some f) := by
  simp [latest?]

theorem latest?_eq_none_iff : latest? fs name = none ↔ ∀ g ∈ fs, g.name ≠ name := by
  simp [latest?]

theorem mem_of_latest? (h : latest? fs name = some f) : f ∈ fs :=
  List.mem_reverse.1 (List.mem_of_find?_eq_some h)

/-- The last registration that brings a symbol splits the history. -/
theorem exists_append_of_latestWith? (h : latestWith? fs symbol = some f) :
    indexedSymbol? f = some symbol ∧ ∃ before after, fs = before ++ f :: after ∧
      ∀ g ∈ after, indexedSymbol? g ≠ some symbol := by
  obtain ⟨hsymbol, after, before, hsplit, hafter⟩ := List.find?_eq_some_iff_append.1 h
  refine ⟨by simpa using hsymbol, before.reverse, after.reverse, ?_, fun g hg => ?_⟩
  · rw [← List.reverse_reverse fs, hsplit]
    simp
  · simpa using hafter g (List.mem_reverse.1 hg)

/-- A symbol denotes the place of the function that was the last to bring it. What stands there has
the symbol, and is no prefix operator, exactly if nothing has been registered under the name of that
function since: a function that is replaced leaves its symbol behind. -/
theorem symbol_of_registerAll
    (h : (registerAll {} fs).findBySymbol? symbol = some id) :
    ∃ before f after, fs = before ++ f :: after ∧
      (f.symbol = some symbol ∧ f.fixity ≠ .prefixOp) ∧
      (∀ g ∈ after, ¬ (g.symbol = some symbol ∧ g.fixity ≠ .prefixOp)) ∧
      (registerAll {} fs).findByName? f.name = some id ∧
      ∃ g, (registerAll {} fs).get? id = some g ∧ g.name = f.name ∧
        ((g.symbol = some symbol ∧ g.fixity ≠ .prefixOp) ↔ ∀ k ∈ after, k.name ≠ f.name) := by
  have hfollows := follows_registerAll fs
  rw [hfollows.symbol] at h
  obtain ⟨f, hlast, hfind⟩ := Option.bind_eq_some_iff.1 h
  obtain ⟨hsymbol, before, after, rfl, hafter⟩ := exists_append_of_latestWith? hlast
  obtain ⟨g, hget, hname⟩ := hfollows.coherent.exists_get? hfind
  have hlatest : (latest? after f.name).or (some f) = some g := by
    rw [← latest?_append_cons before, ← hname]
    exact hfollows.latest hget
  simp only [← indexedSymbol?_eq_some_iff]
  refine ⟨before, f, after, rfl, hsymbol, hafter, hfind, g, hget, hname, ?_⟩
  rw [← latest?_eq_none_iff]
  cases hrest : latest? after f.name with
  | none =>
      rw [hrest] at hlatest
      obtain rfl : f = g := Option.some.inj hlatest
      exact iff_of_true hsymbol rfl
  | some k =>
      rw [hrest] at hlatest
      obtain rfl : k = g := Option.some.inj hlatest
      exact iff_of_false (hafter k (mem_of_latest? hrest)) nofun

/-- Of two functions that bring one symbol the second one has it, also after the first one has been
replaced by one without. -/
theorem symbol_of_root :
    let fs : List NamedFunction :=
      [{ name := "sqrt", symbol := some "√" }, { name := "root", symbol := some "√" },
        { name := "sqrt" }]
    (registerAll {} fs).findBySymbol? "√" = some 1 ∧
      ∃ before f after, fs = before ++ f :: after ∧
        (f.symbol = some "√" ∧ f.fixity ≠ .prefixOp) ∧
        (∀ g ∈ after, ¬ (g.symbol = some "√" ∧ g.fixity ≠ .prefixOp)) ∧
        (registerAll {} fs).findByName? f.name = some 1 ∧
        ∃ g, (registerAll {} fs).get? 1 = some g ∧ g.name = f.name ∧
          ((g.symbol = some "√" ∧ g.fixity ≠ .prefixOp) ↔ ∀ k ∈ after, k.name ≠ f.name) := by
  intro fs
  have h : (registerAll {} fs).findBySymbol? "√" = some 1 := rfl
  exact ⟨h, symbol_of_registerAll h⟩

/-- An operator that is replaced by a prefix operator without a symbol is still found by its old
one. -/
theorem not_symbol_of_replaced :
    ¬ ∀ fs symbol id g, (registerAll {} fs).findBySymbol? symbol = some id →
      (registerAll {} fs).get? id = some g → g.symbol = some symbol ∧ g.fixity ≠ .prefixOp := by
  intro h
  have hstale := h [{ name := "mark", symbol := some "#", fixity := .infixOp },
    { name := "mark", fixity := .prefixOp }] "#" 0 { name := "mark", fixity := .prefixOp } rfl rfl
  exact hstale.2 rfl

end Registry

end Reckoner
