import Reckoner.Proofs.Calculator.Dialogue
import Reckoner.Proofs.Expr.ByName
import Reckoner.Proofs.Parser.Meeting

/-!
Numbers of variables implement their names.

A host that knows no numbers reads every text as if it were the first one and keeps values by name.
Whatever is asked, in any order, a calculator answers as this host does, as long as variables are
only bound and unbound by numbers that have been given to a name.
-/
namespace Reckoner

namespace Request

/-- The request with the names of variables, if they have any. -/
def named? (n : Names) : Request VariableId → Option (Request String)
  | .parse text => some (.parse text)
  | .eval text => some (.eval text)
  | .evaluate index => some (.evaluate index)
  | .number name => some (.number name)
  | .bind id v => (n.nameOf? id).map (.bind · v)
  | .unbind id => (n.nameOf? id).map .unbind
  | .setMode mode => some (.setMode mode)

/-- The request names a variable: it asks for its number or contains its name in a text. -/
def Mentions {κ : Type} (v : Vocabulary) (name : String) : Request κ → Prop
  | .parse text | .eval text =>
    v.constant? name = none ∧ ∃ t ∈ Token.scan text, t.kind = .ident name
  | .number other => name = other
  | .evaluate _ | .bind _ _ | .unbind _ | .setMode _ => False

end Request

namespace Transcript

/-- Requests with the names that variables have at the time, if they have any. -/
def named? (t : Transcript) : List (Request VariableId) → Option (List (Request String))
  | [] => some []
  | request :: rest =>
    match request.named? t.calculator.names, (t.ask request).named? rest with
    | some request', some rest' => some (request' :: rest')
    | _, _ => none

/-- The names met so far. -/
def names (t : Transcript) : Names :=
  t.calculator.names

end Transcript

/-- What a host has that knows the names of variables but no numbers. Its trees are those of all
texts that were read, without the numbers in them. -/
structure NamedTranscript where
  vocabulary : Vocabulary
  store : NamedStore
  trees : List Expr := []
  values : List Value := []
  names : List String := []

namespace NamedTranscript

/-- The host of a new calculator. -/
def new (o : Options) : NamedTranscript :=
  { vocabulary := (Calculator.new o).vocabulary, store := { mode := o.mode } }

/-- A text is read as if no name had been met before. -/
def parse (t : NamedTranscript) (text : String) : NamedTranscript :=
  { t with
    trees := t.trees ++ [(Parser.read t.vocabulary {} (Token.scan text)).1.anonymous] }

/-- A tree is evaluated by the names of its variables. -/
def evaluate (t : NamedTranscript) (index : Nat) : NamedTranscript :=
  match t.trees[index]? with
  | some e =>
    { t with
      store := (e.evalByName t.vocabulary.functions t.store).2
      values := t.values ++ [(e.evalByName t.vocabulary.functions t.store).1] }
  | none => t

/-- The transcript after one more request. -/
def ask (t : NamedTranscript) : Request String → NamedTranscript
  | .parse text => t.parse text
  | .eval text => (t.parse text).evaluate t.trees.length
  | .evaluate index => t.evaluate index
  | .number name => { t with names := t.names ++ [name] }
  | .bind name v => { t with store := t.store.set name v }
  | .unbind name => { t with store := t.store.unset name }
  | .setMode mode => { t with store := t.store.setMode mode }

/-- The transcript after requests. -/
def after (t : NamedTranscript) (requests : List (Request String)) : NamedTranscript :=
  requests.foldl ask t

end NamedTranscript

namespace Transcript

open Reckoner.Expr (anonymous)
open Reckoner.Parser (Grows extends_of_grows)

variable {t : Transcript} {t' : NamedTranscript} {request : Request VariableId} {o : Options}

/-! ## The names that are met -/

theorem grows_read (v : Vocabulary) (n : Names) (text : String) :
    Grows (fun name => v.constant? name = none ∧ ∃ t ∈ Token.scan text, t.kind = .ident name) n
      (Parser.read v n (Token.scan text)).2 := by
  have hparse := Parser.grows_of_parse v n (Token.scan text)
  unfold Parser.read
  generalize Parser.parse v n (Token.scan text) = result at hparse ⊢
  obtain ⟨result | result, n'⟩ := result <;> exact hparse

theorem names_ask_parse (t : Transcript) (text : String) :
    (t.ask (.parse text)).names =
      (Parser.read t.calculator.vocabulary t.names (Token.scan text)).2 :=
  t.calculator.names_parse text

theorem names_evaluate (t : Transcript) (index : Nat) :
    (t.ask (.evaluate index)).names = t.names := by
  cases htree : t.trees[index]? with
  | none => rw [ask_evaluate_of_eq_none htree]
  | some e =>
      rw [ask_evaluate htree, names, Calculator.names_evaluate]
      rfl

theorem names_ask_eval (t : Transcript) (text : String) :
    (t.ask (.eval text)).names = (t.ask (.parse text)).names := by
  rw [ask_eval, ← names_evaluate (t.ask (.parse text)) t.trees.length]
  rfl

/-- One request adds no other names than those that it mentions. -/
theorem grows_ask (t : Transcript) (request : Request VariableId) :
    Grows (fun name => request.Mentions t.calculator.vocabulary name) t.names
      (t.ask request).names := by
  cases request with
  | parse text =>
      rw [names_ask_parse]
      exact grows_read t.calculator.vocabulary t.names text
  | eval text =>
      rw [names_ask_eval, names_ask_parse]
      exact grows_read t.calculator.vocabulary t.names text
  | evaluate index =>
      rw [names_evaluate]
      exact .refl _
  | number name => exact ⟨[name], rfl, by simp [Request.Mentions]⟩
  | bind id v => exact .refl _
  | unbind id => exact .refl _
  | setMode mode => exact .refl _

/-- The names only grow. -/
theorem extends_after (t : Transcript) (requests : List (Request VariableId)) :
    t.names.Extends (t.after requests).names := by
  induction requests generalizing t with
  | nil => exact .refl _
  | cons request rest ih =>
      exact (extends_of_grows (t.grows_ask request)).trans (ih (t.ask request))

/-- Every name has been mentioned in a request, and the index stays coherent. -/
theorem coherent_after (h : t.names.Coherent) (requests : List (Request VariableId)) :
    (t.after requests).names.Coherent ∧ ∀ name ∈ (t.after requests).names.toList,
      name ∈ t.names.toList ∨
        ∃ request ∈ requests, request.Mentions t.calculator.vocabulary name := by
  induction requests generalizing t with
  | nil => exact ⟨h, fun name hname => .inl hname⟩
  | cons request rest ih =>
      have hgrows := t.grows_ask request
      obtain ⟨hcoherent, hnames⟩ := ih (hgrows.coherent h)
      refine ⟨hcoherent, fun name hname => ?_⟩
      rcases hnames name hname with hname | ⟨request', hmem, hname⟩
      · exact (hgrows.mem hname).imp_right fun hname => ⟨request, List.mem_cons_self, hname⟩
      · rw [vocabulary_ask] at hname
        exact .inr ⟨request', List.mem_cons_of_mem _ hmem, hname⟩

/-! ## The same answers -/

/-- The calculator has answered as the host without numbers, and has bound the same variables. -/
structure Matches (o : Options) (t : Transcript) (t' : NamedTranscript) : Prop where
  vocabulary : t.calculator.vocabulary = (Calculator.new o).vocabulary
  vocabulary_eq : t'.vocabulary = t.calculator.vocabulary
  coherent : t.names.Coherent
  store : Expr.Tracks t.names t.calculator.store t'.store
  numbered : ∀ e ∈ t.trees, Expr.Numbered t.names e
  trees : t.trees.map anonymous = t'.trees
  values : t.values = t'.values
  numbers : t.numbers.map t.names.nameOf? = t'.names.map some

theorem matches_new (o : Options) : Matches o (new o) (.new o) where
  vocabulary := rfl
  vocabulary_eq := rfl
  coherent := Names.coherent_empty
  store := by
    refine ⟨rfl, fun {id name} hid => ?_, fun _ => rfl, fun _ => rfl, Nat.zero_le _⟩
    cases id <;> cases hid
  numbered := by simp [new]
  trees := rfl
  values := rfl
  numbers := rfl

/-- A number that has a name keeps it. -/
theorem map_nameOf?_of_extends {n m : Names} (h : n.Extends m) {numbers : List VariableId}
    {names : List String} (hnumbers : numbers.map n.nameOf? = names.map some) :
    numbers.map m.nameOf? = names.map some := by
  rw [← hnumbers]
  refine List.map_congr_left fun id hid => ?_
  have hmem : n.nameOf? id ∈ names.map some := hnumbers ▸ List.mem_map_of_mem hid
  obtain ⟨name, -, hname⟩ := List.mem_map.1 hmem
  rw [← hname, h.nameOf?_eq_some hname.symm]

theorem Matches.hasOperators (h : Matches o t t') :
    t.calculator.vocabulary.functions.HasOperators := by
  rw [h.vocabulary]
  exact Calculator.hasOperators_new o

theorem Matches.readsOnly (h : Matches o t t') :
    t.calculator.registry.ReadsOnly fun _ => False := by
  rw [Calculator.registry, h.vocabulary]
  exact Calculator.readsOnly_new o

/-- A text is read to the same tree but for numbers. -/
theorem Matches.parse (h : Matches o t t') (text : String) :
    Matches o (t.ask (.parse text)) (t'.parse text) := by
  have hgrows := t.grows_ask (.parse text)
  have hextends : t.names.Extends (t.ask (.parse text)).names := extends_of_grows hgrows
  have hcoherent : (t.ask (.parse text)).names.Coherent := hgrows.coherent h.coherent
  have hstore : (t.ask (.parse text)).calculator.store = t.calculator.store :=
    t.calculator.store_parse text
  have htree : (t.calculator.parse text).1.anonymous =
      (Parser.read t'.vocabulary {} (Token.scan text)).1.anonymous := by
    rw [h.vocabulary_eq, Calculator.tree_parse]
    exact Parser.anonymous_read h.hasOperators (Token.scan text) t.names {}
  have hread : Expr.Numbered (t.ask (.parse text)).names (t.calculator.parse text).1 := by
    rw [names_ask_parse, Calculator.tree_parse]
    exact Expr.numbered_read h.hasOperators t.names text
  refine ⟨(vocabulary_ask t _).trans h.vocabulary, h.vocabulary_eq.trans (vocabulary_ask t _).symm,
    hcoherent, ?_, ?_, ?_, h.values, map_nameOf?_of_extends hextends h.numbers⟩
  · rw [hstore]
    exact h.store.mono hextends h.coherent hcoherent
  · exact List.forall_mem_append.2
      ⟨fun e he => (h.numbered e he).mono hextends, List.forall_mem_singleton.2 hread⟩
  · rw [NamedTranscript.parse, ← h.trees, ← htree]
    exact List.map_append

/-- An evaluation has the same value and binds the same variables. -/
theorem Matches.evaluate (h : Matches o t t') (index : Nat) :
    Matches o (t.ask (.evaluate index)) (t'.evaluate index) := by
  have htrees : t'.trees[index]? = (t.trees[index]?).map anonymous := by
    rw [← h.trees, List.getElem?_map]
  unfold NamedTranscript.evaluate
  rw [htrees]
  cases htree : t.trees[index]? with
  | none =>
      rw [ask_evaluate_of_eq_none htree]
      exact h
  | some e =>
      have he := h.numbered e (List.mem_of_getElem? htree)
      obtain ⟨hvalue, hstore⟩ :=
        Expr.eval_tracks h.readsOnly h.coherent e t.calculator.store t'.store he h.store
      rw [ask_evaluate htree]
      simp only [Option.map_some, Expr.evalByName_anonymous, h.vocabulary_eq]
      refine ⟨h.vocabulary, rfl, h.coherent, hstore, h.numbered, h.trees, ?_, h.numbers⟩
      rw [← h.values]
      exact congrArg (fun v => t.values ++ [v]) hvalue

theorem Matches.keepLast (h : Matches o t t') (e : Expr) : Matches o (t.keepLast e) t' :=
  ⟨h.vocabulary, h.vocabulary_eq, h.coherent, h.store, h.numbered, h.trees, h.values, h.numbers⟩

/-- The number of a variable that is asked for is one of its name. -/
theorem Matches.number (h : Matches o t t') (name : String) :
    Matches o (t.ask (.number name)) (t'.ask (.number name)) := by
  have hextends : t.names.Extends (t.ask (.number name)).names := t.names.extends_idOf name
  have hcoherent : (t.ask (.number name)).names.Coherent := h.coherent.idOf name
  refine ⟨h.vocabulary, h.vocabulary_eq, hcoherent, h.store.mono hextends h.coherent hcoherent,
    fun e he => (h.numbered e he).mono hextends, h.trees, h.values, ?_⟩
  have hname : (t.ask (.number name)).names.nameOf? (t.names.idOf name).1 = some name :=
    h.coherent.nameOf?_idOf name
  have hold := map_nameOf?_of_extends hextends h.numbers
  calc (t.ask (.number name)).numbers.map (t.ask (.number name)).names.nameOf?
      = t.numbers.map (t.ask (.number name)).names.nameOf? ++
          [(t.ask (.number name)).names.nameOf? (t.names.idOf name).1] := List.map_append
    _ = t'.names.map some ++ [some name] := by rw [hold, hname]
    _ = (t'.ask (.number name)).names.map some := by simp [NamedTranscript.ask]

/-- One request is answered in the same way. -/
theorem Matches.ask (h : Matches o t t') {request' : Request String}
    (hrequest : request.named? t.names = some request') :
    Matches o (t.ask request) (t'.ask request') := by
  cases request with
  | parse text =>
      cases hrequest
      exact h.parse text
  | eval text =>
      cases hrequest
      have hlength : t'.trees.length = t.trees.length := by rw [← h.trees, List.length_map]
      rw [ask_eval, NamedTranscript.ask, hlength]
      exact ((h.parse text).evaluate t.trees.length).keepLast _
  | evaluate index =>
      cases hrequest
      exact h.evaluate index
  | number name =>
      cases hrequest
      exact h.number name
  | bind id v =>
      obtain ⟨name, hname, rfl⟩ := Option.map_eq_some_iff.1 hrequest
      exact ⟨h.vocabulary, h.vocabulary_eq, h.coherent, h.store.set h.coherent hname v, h.numbered,
        h.trees, h.values, h.numbers⟩
  | unbind id =>
      obtain ⟨name, hname, rfl⟩ := Option.map_eq_some_iff.1 hrequest
      exact ⟨h.vocabulary, h.vocabulary_eq, h.coherent, h.store.unset h.coherent hname, h.numbered,
        h.trees, h.values, h.numbers⟩
  | setMode mode =>
      cases hrequest
      exact ⟨h.vocabulary, h.vocabulary_eq, h.coherent, h.store.setMode mode, h.numbered, h.trees,
        h.values, h.numbers⟩

/-- So are requests one after the other. -/
theorem Matches.after (h : Matches o t t') {requests : List (Request VariableId)}
    {requests' : List (Request String)} (hrequests : t.named? requests = some requests') :
    Matches o (t.after requests) (t'.after requests') := by
  induction requests generalizing t t' requests' with
  | nil =>
      cases hrequests
      exact h
  | cons request rest ih =>
      rw [named?] at hrequests
      split at hrequests
      · next request' rest' hrequest hrest =>
          cases hrequests
          exact ih (h.ask hrequest) hrest
      · cases hrequests

/-- Numbers of variables implement their names. After any requests that bind and unbind variables
only by numbers in use, the index finds a name exactly under the number that the list has for it,
the numbers in use are those from one up, every name has been mentioned in a request, and later
requests only add names at the end. A variable in a tree has the number of its name, at any later
time too. The trees but for the numbers, the values, the numbers that were asked for and the
bindings are those of a host that knows only names, and the slots in which the bindings are kept
have grown no further than the numbers. -/
theorem names_of_requests (o : Options) {requests : List (Request VariableId)}
    {requests' : List (Request String)} (h : (new o).named? requests = some requests') :
    let t := (new o).after requests
    let t' := (NamedTranscript.new o).after requests'
    (∀ name id, t.names.find? name = some id ↔ t.names.nameOf? id = some name) ∧
      (∀ id, (t.names.nameOf? id).isSome = true ↔ 1 ≤ id ∧ id ≤ t.names.size) ∧
      (∀ name, (t.names.find? name).isSome = true →
        ∃ request ∈ requests, request.Mentions (Calculator.new o).vocabulary name) ∧
      (∀ more, t.names.Extends (t.after more).names) ∧
      (∀ more, ∀ e ∈ t.trees, ∀ name id, .var name id ∈ e.leaves →
        (t.after more).names.nameOf? id = some name) ∧
      t.numbers.map t.names.nameOf? = t'.names.map some ∧
      t.trees.map anonymous = t'.trees ∧
      t.values = t'.values ∧
      t.calculator.mode = t'.store.mode ∧
      (∀ id, t.calculator.value? id = (t.names.nameOf? id).bind t'.store.value?) ∧
      (∀ name, t'.store.value? name = (t.names.find? name).bind t.calculator.value?) ∧
      t.calculator.store.slots.length ≤ t.names.size + 1 := by
  intro t t'
  have hmatches : Matches o t t' := (matches_new o).after h
  have hnew : (new o).names.Coherent := Names.coherent_empty
  obtain ⟨hcoherent, hmentioned⟩ := coherent_after hnew requests
  have hbijection : ∀ name id, t.names.find? name = some id ↔ t.names.nameOf? id = some name :=
    fun _ _ => hcoherent.find?_eq_some_iff
  have hextends : ∀ more, t.names.Extends (t.after more).names := t.extends_after
  refine ⟨hbijection, fun _ => Names.isSome_nameOf?_iff, fun name hname => ?_, hextends,
    fun more e he name id hmem => ?_, hmatches.numbers, hmatches.trees, hmatches.values,
    hmatches.store.mode, fun id => ?_, fun name => ?_, hmatches.store.slots⟩
  · rcases hmentioned name (hcoherent.isSome_find?_iff.1 hname) with hold | hrequest
    · cases hold
    · exact hrequest
  · exact (hextends more).nameOf?_eq_some
      ((hbijection name id).1 (hmatches.numbered e he name id hmem))
  · cases hid : t.names.nameOf? id with
    | none => exact hmatches.store.unnumbered hid
    | some name => exact hmatches.store.value hid
  · cases hname : t.names.find? name with
    | none => exact hmatches.store.unnamed hname
    | some id => exact (hmatches.store.value ((hbijection name id).1 hname)).symm

/-- A text that meets `y` and cannot be read, then `x` by evaluation, and an old tree evaluated
again after `y` has been forgotten. -/
theorem names_of_failing_text :
    let o : Options := { mode := .exact }
    let requests : List (Request VariableId) := [.parse "(y))", .bind 1 (.int 41),
      .eval "x = y + 1", .number "x", .unbind 1, .evaluate 1]
    let requests' : List (Request String) := [.parse "(y))", .bind "y" (.int 41),
      .eval "x = y + 1", .number "x", .unbind "y", .evaluate 1]
    let t := (new o).after requests
    let t' := (NamedTranscript.new o).after requests'
    (new o).named? requests = some requests' ∧ t.names.toList = ["y", "x"] ∧ t.numbers = [2] ∧
      t.values.map Value.text = ["42", "Err: Eval.UnboundVariable Variable y is not bound"] ∧
      t.values = t'.values ∧ t.trees.map anonymous = t'.trees ∧
      ∀ id, t.calculator.value? id = (t.names.nameOf? id).bind t'.store.value? := by
  intro o requests requests' t t'
  have hbind : ((new o).ask (.parse "(y))")).calculator.names.nameOf? 1 = some "y" := by
    decide +kernel
  have hunbind : (((((new o).ask (.parse "(y))")).ask (.bind 1 (.int 41))).ask
      (.eval "x = y + 1")).ask (.number "x")).calculator.names.nameOf? 1 = some "y" := by
    decide +kernel
  have hnamed : (new o).named? requests = some requests' := by
    simp only [requests, named?, Request.named?, hbind, hunbind, Option.map_some]
    rfl
  obtain ⟨-, -, -, -, -, -, htrees, hvalues, -, hbindings, -, -⟩ := names_of_requests o hnamed
  exact ⟨hnamed, by decide +kernel, by decide +kernel, by decide +kernel, hvalues, htrees,
    hbindings⟩

end Transcript

end Reckoner
