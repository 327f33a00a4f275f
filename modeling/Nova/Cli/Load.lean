import Nova.Lib.Merge
import Nova.Louds.Runs
import Mathlib.Logic.Relation

/-!
# Loading several files

`load_multiple_files` parses every file on a thread of its own. The parsers send what they
read over one bounded channel; the main thread hands it to `bulk_load` as an iterator and
then waits for the parsers to end. `Step` interleaves the steps of the parsers and of the
main thread in any order, for any files and any `bulk_load` that reads the iterator up to
its first `None` or returns an error before.

* `loads_iff`: the load returns, whatever the order, exactly if no more than
  `channelBound` messages are left whenever the main thread may stop receiving. Where it
  returns `Ok(n)`, the `n` quads it has handed over are those of all the files.
* `load_hangs`: an unreadable file and another one of 4097 quads; the parser of the second
  waits for room in the channel and the main thread for the parser.

The receiver lives as long as `load_multiple_files`, so a send never finds it gone.
-/

namespace Nova.Cli

open Nova Nova.Lib List

def channelBound : Nat := 4096

/-- `Result<Quad, String>`. -/
abbrev Message := Except String Quad

/-- What the main thread and a parser find out about a file: whether there is a format and
a parser for it, whether it can be opened, and what the parser returns. -/
structure InputFile where
  path : String
  formatName : String
  makeParser : Except String Unit
  content : Except String (List (Except String Quad))

/-- The quads up to the first parse error, and the error. -/
def parsed (formatName : String) : List (Except String Quad) → List Message
  | [] => []
  | .ok q :: rest => .ok q :: parsed formatName rest
  | .error e :: _ => [.error (formatName ++ " parse error: " ++ e)]

/-- What the thread of a file sends. -/
def InputFile.messages (f : InputFile) : List Message :=
  match f.content with
  | .error _ => [.error ("failed to open " ++ f.path)]
  | .ok results => parsed f.formatName results

/-- The file has no parser, cannot be opened, or has an error in it. -/
def InputFile.Fails (f : InputFile) : Prop :=
  (∃ e, f.makeParser = .error e) ∨ (∃ e, f.content = .error e) ∨
    ∃ results e, f.content = .ok results ∧ .error e ∈ results

/-- The quads of a file without errors. -/
def InputFile.quads (f : InputFile) : List Quad :=
  match f.content with
  | .error _ => []
  | .ok results => results.filterMap Except.toOption

/-- What `bulk_load` may do after the quads it has been handed: ask for another one or
return an error; and at the end of the iterator, return their number or an error. -/
structure BulkLoad where
  asks : List Quad → Prop
  bails : List Quad → Prop
  commits : List Quad → Prop
  aborts : List Quad → Prop
  asks_or_bails : ∀ handed, asks handed ∨ bails handed
  commits_or_aborts : ∀ handed, commits handed ∨ aborts handed

namespace BulkLoad

open LoudsStore

variable {D : Type} {A : DictApi D} {s : LoudsStore D} {handed : List Quad}

/-- `LoudsStore::bulk_load` stops at the first quad that gets no ids. -/
def ofStore (A : DictApi D) (s : LoudsStore D) : BulkLoad where
  asks handed := (loadQuads A s s.perGraph handed).1.isOk = true
  bails handed := ¬(loadQuads A s s.perGraph handed).1.isOk = true
  commits handed := (bulkLoad A s handed).1.isOk = true
  aborts handed := ¬(bulkLoad A s handed).1.isOk = true
  asks_or_bails _ := Classical.em _
  commits_or_aborts _ := Classical.em _

end BulkLoad

/-- The main thread. -/
inductive Main where
  /-- It starts the threads of the files. -/
  | spawning (rest : List InputFile)
  | receiving
  /-- The iterator has returned `None`. -/
  | exhausted (errorSlot : Option String)
  /-- It leaves the scope, which waits for the parsers. -/
  | joining (result : Except String Nat)
  | returned (result : Except String Nat)

/-- A parser is what it has left to send, or `none` once it has ended. -/
structure Load where
  main : Main
  parsers : List (Option (List Message))
  channel : List Message
  /-- What `bulk_load` has been handed. -/
  handed : List Quad

def failed : Except String Nat := .error "bulk_load failed"

/-- The end of the scope's closure: an error in the slot comes before the count. -/
def outcome (handed : List Quad) : Option String → Except String Nat
  | some msg => .error msg
  | none => .ok handed.length

namespace Load

/-- The beginning: a file without a parser returns at once. -/
def start (files : List InputFile) : Load where
  main :=
    match files.forM InputFile.makeParser with
    | .error e => .returned (.error e)
    | .ok () => .spawning files
  parsers := []
  channel := []
  handed := []

inductive Step (b : BulkLoad) (s : Load) : Load → Prop
  | spawn (f : InputFile) (rest : List InputFile) (hmain : s.main = .spawning (f :: rest)) :
    Step b s { s with main := .spawning rest, parsers := s.parsers ++ [some f.messages] }
  /-- `drop(tx)`. -/
  | listen (hmain : s.main = .spawning []) : Step b s { s with main := .receiving }
  | send (i : Nat) (m : Message) (rest : List Message) (hparser : s.parsers[i]? = some (some (m :: rest)))
    (hroom : s.channel.length < channelBound) :
    Step b s { s with parsers := s.parsers.set i (some rest), channel := s.channel ++ [m] }
  | finish (i : Nat) (hparser : s.parsers[i]? = some (some [])) :
    Step b s { s with parsers := s.parsers.set i none }
  | receive (q : Quad) (rest : List Message) (hmain : s.main = .receiving) (hasks : b.asks s.handed)
    (hchannel : s.channel = .ok q :: rest) :
    Step b s { s with channel := rest, handed := s.handed ++ [q] }
  | receiveError (msg : String) (rest : List Message) (hmain : s.main = .receiving) (hasks : b.asks s.handed)
    (hchannel : s.channel = .error msg :: rest) :
    Step b s { s with main := .exhausted (some msg), channel := rest }
  /-- Every sender is gone and nothing is left. -/
  | receiveClosed (hmain : s.main = .receiving) (hasks : b.asks s.handed) (hchannel : s.channel = [])
    (hended : ∀ p ∈ s.parsers, p = none) : Step b s { s with main := .exhausted none }
  | bail (hmain : s.main = .receiving) (hbails : b.bails s.handed) :
    Step b s { s with main := .joining failed }
  | commit (slot : Option String) (hmain : s.main = .exhausted slot) (hcommits : b.commits s.handed) :
    Step b s { s with main := .joining (outcome s.handed slot) }
  | abort (slot : Option String) (hmain : s.main = .exhausted slot) (haborts : b.aborts s.handed) :
    Step b s { s with main := .joining failed }
  | join (result : Except String Nat) (hmain : s.main = .joining result) (hended : ∀ p ∈ s.parsers, p = none) :
    Step b s { s with main := .returned result }

def Reachable (b : BulkLoad) (files : List InputFile) : Load → Prop :=
  Relation.ReflTransGen (Step b) (start files)

/-- No party can move, and the main thread has not returned. -/
def Stuck (b : BulkLoad) (s : Load) : Prop :=
  (∀ result, s.main ≠ .returned result) ∧ ∀ s', ¬Step b s s'

end Load

/-- The load of the files returns, in whatever order the threads move; an `Ok` counts the
quads of the files, all of which have been handed over once. -/
structure Loads (b : BulkLoad) (files : List InputFile) : Prop where
  returns : ∀ s, Load.Reachable b files s → ¬s.Stuck b
  counts : ∀ s n, Load.Reachable b files s → s.main = .returned (.ok n) →
    n = s.handed.length ∧ s.handed.Perm (files.flatMap InputFile.quads)
  errors : ∀ s result, Load.Reachable b files s → s.main = .returned result →
    (∃ f ∈ files, f.Fails) → ∃ e, result = .error e

/-- The main thread may stop receiving with `left` messages not received: after some quads,
`bulk_load` returns an error or the error of a file comes next. -/
def Stops (b : BulkLoad) (files : List InputFile) (left : Nat) : Prop :=
  ∃ handed rest, Takes (files.map InputFile.messages) (handed.map .ok) rest ∧
    (∀ before, before <+: handed → before ≠ handed → b.asks before) ∧
    (b.bails handed ∧ left = total rest ∨
      b.asks handed ∧ ∃ e rest', Takes rest [.error e] rest' ∧ left = total rest')

/-! ## What a file sends -/

theorem parsed_of_ok {formatName : String} {results : List (Except String Quad)}
    (h : ∀ e, Except.error e ∉ results) : parsed formatName results = (results.filterMap Except.toOption).map .ok := by
  induction results with
  | nil => rfl
  | cons r rest ih =>
    cases r with
    | ok q =>
      have hrest := ih fun e he => h e (mem_cons_of_mem _ he)
      simp [parsed, hrest, Except.toOption]
    | error e => exact absurd mem_cons_self (h e)

theorem parsed_replicate (formatName : String) (q : Quad) (n : Nat) :
    parsed formatName (List.replicate n (.ok q)) = List.replicate n (.ok q) := by
  induction n with
  | zero => rfl
  | succ n ih => rw [replicate_succ, parsed, ih]

theorem error_mem_parsed {formatName : String} {results : List (Except String Quad)} {e : String}
    (h : Except.error e ∈ results) : ∃ msg, Except.error msg ∈ parsed formatName results := by
  induction results with
  | nil => cases h
  | cons r rest ih =>
    cases r with
    | ok q =>
      have hrest : Except.error e ∈ rest := by simpa using h
      rcases ih hrest with ⟨msg, hmsg⟩
      exact ⟨msg, mem_cons_of_mem _ hmsg⟩
    | error e' => exact ⟨_, mem_singleton_self _⟩

theorem InputFile.messages_eq {f : InputFile} (h : ∀ msg, Except.error msg ∉ f.messages) :
    (∀ e, f.content ≠ .error e) ∧ (∀ results e, f.content = .ok results → Except.error e ∉ results) ∧
      f.messages = f.quads.map .ok := by
  unfold messages at h
  cases hc : f.content with
  | error e =>
    rw [hc] at h
    exact absurd (mem_singleton_self _) (h _)
  | ok results =>
    rw [hc] at h
    have hok : ∀ e, Except.error e ∉ results := by
      intro e he
      rcases error_mem_parsed he with ⟨msg, hmsg⟩
      exact h msg hmsg
    refine ⟨by simp, ?_, ?_⟩
    · intro results' e heq he
      cases heq
      exact hok e he
    · simp only [messages, quads, hc]
      exact parsed_of_ok hok

theorem messages_flatten {files : List InputFile} (hmake : files.forM InputFile.makeParser = .ok ())
    (h : ∀ msg, Except.error msg ∉ (files.map InputFile.messages).flatten) :
    (∀ f ∈ files, ¬f.Fails) ∧
      (files.map InputFile.messages).flatten = (files.flatMap InputFile.quads).map .ok := by
  induction files with
  | nil => exact ⟨fun f hf => absurd hf (not_mem_nil), rfl⟩
  | cons f files ih =>
    have hparser : f.makeParser = .ok () ∧ files.forM InputFile.makeParser = .ok () := by
      cases hf : f.makeParser with
      | ok _ => exact ⟨rfl, by simpa [forM_eq_forM, hf, bind, Except.bind] using hmake⟩
      | error e => simp [forM_eq_forM, hf, bind, Except.bind] at hmake
    simp only [map_cons, flatten_cons, mem_append, not_or] at h
    rcases f.messages_eq (fun msg => (h msg).1) with ⟨hopen, hparse, hmsgs⟩
    rcases ih hparser.2 (fun msg => (h msg).2) with ⟨hfails, hflat⟩
    constructor
    · intro f' hf'
      rcases mem_cons.mp hf' with rfl | hf'
      · rintro (⟨e, he⟩ | ⟨e, he⟩ | ⟨results, e, hc, he⟩)
        · rw [hparser.1] at he
          cases he
        · exact hopen e he
        · exact hparse results e hc he
      · exact hfails f' hf'
    · simp only [map_cons, flatten_cons, flatMap_cons, map_append, hmsgs, hflat]

/-! ## What every order of steps keeps -/

namespace Load

variable {b : BulkLoad} {files : List InputFile} {s s' : Load} {i : Nat} {m : Message} {rest : List Message}

/-- What the parsers have left to send. -/
def todos (parsers : List (Option (List Message))) : List (List Message) := parsers.map fun p => p.getD []

theorem set_eq_self {α : Type} {xs : List α} {x : α} {i : Nat} (h : xs[i]? = some x) : xs.set i x = xs := by
  rcases List.getElem?_eq_some_iff.mp h with ⟨hi, rfl⟩
  exact set_getElem_self hi

def Ended (s : Load) : Prop := ∀ p ∈ s.parsers, p = none

/-- Everything has been received, and no parser is left. -/
def Done (files : List InputFile) (s : Load) : Prop :=
  s.Ended ∧ s.channel = [] ∧ Takes (files.map InputFile.messages) (s.handed.map .ok) (todos s.parsers)

/-- What was left when the main thread stopped receiving is still on its way. -/
def Outstanding (b : BulkLoad) (files : List InputFile) (s : Load) : Prop :=
  ∃ left, Stops b files left ∧ s.channel.length + total (todos s.parsers) = left

/-- `bulk_load` has asked for all it has been handed. -/
def Asked (b : BulkLoad) (s : Load) : Prop := ∀ before, before <+: s.handed → before ≠ s.handed → b.asks before

/-- What the phase of the main thread says about the rest. -/
def PhaseOk (b : BulkLoad) (files : List InputFile) (s : Load) : Prop :=
  match s.main with
  | .spawning rest =>
    s.handed = [] ∧ Takes (files.map InputFile.messages) s.channel (todos s.parsers ++ rest.map InputFile.messages)
  | .receiving => Asked b s ∧ Takes (files.map InputFile.messages) (s.handed.map .ok ++ s.channel)
    (todos s.parsers)
  | .exhausted none => Done files s
  | .exhausted (some _) => Outstanding b files s
  | .joining (.ok n) => Done files s ∧ n = s.handed.length
  | .joining (.error _) => Outstanding b files s ∨ s.Ended
  | .returned (.ok n) => Done files s ∧ n = s.handed.length
  | .returned (.error _) => True

def Inv (b : BulkLoad) (files : List InputFile) (s : Load) : Prop :=
  s.channel.length ≤ channelBound ∧ PhaseOk b files s

theorem todos_getElem? (hparser : s.parsers[i]? = some (some rest)) : (todos s.parsers)[i]? = some rest := by
  simp [todos, hparser]

theorem todos_set (p : Option (List Message)) :
    todos (s.parsers.set i p) = (todos s.parsers).set i (p.getD []) := by
  simp [todos, map_set]

theorem todos_finish (hparser : s.parsers[i]? = some (some [])) :
    todos (s.parsers.set i none) = todos s.parsers := by
  rw [todos_set]
  exact set_eq_self (todos_getElem? hparser)

theorem ended_todos (h : s.Ended) : total (todos s.parsers) = 0 := by
  have hall : ∀ n ∈ (todos s.parsers).map List.length, n = 0 := by
    intro n hn
    simp only [todos, map_map, mem_map] at hn
    rcases hn with ⟨p, hp, rfl⟩
    rw [h p hp]
    rfl
  exact sum_eq_zero hall

theorem Ended.not_running (h : s.Ended) : s.parsers[i]? ≠ some (some rest) := by
  intro hparser
  have hnone := h _ (mem_of_getElem? hparser)
  cases hnone

theorem send_total (hparser : s.parsers[i]? = some (some (m :: rest))) :
    total (todos (s.parsers.set i (some rest))) + 1 = total (todos s.parsers) := by
  have htakes := Takes.cons i (todos_getElem? hparser) (.nil _)
  have htotal := htakes.total_eq
  rw [todos_set, Option.getD_some]
  simp only [length_singleton] at htotal
  omega

theorem Outstanding.send (h : Outstanding b files s) (hparser : s.parsers[i]? = some (some (m :: rest))) :
    Outstanding b files { s with parsers := s.parsers.set i (some rest), channel := s.channel ++ [m] } := by
  rcases h with ⟨left, hstops, htotal⟩
  refine ⟨left, hstops, ?_⟩
  have hsend := send_total hparser
  simp only [length_append, length_singleton]
  omega

/-- A message moves from its parser to the channel. -/
theorem PhaseOk.send (h : PhaseOk b files s) (hparser : s.parsers[i]? = some (some (m :: rest))) :
    PhaseOk b files { s with parsers := s.parsers.set i (some rest), channel := s.channel ++ [m] } := by
  have hset : todos (s.parsers.set i (some rest)) = (todos s.parsers).set i rest := todos_set _
  have hhead := todos_getElem? hparser
  have hrunning : ¬s.Ended := fun hended => hended.not_running hparser
  unfold PhaseOk at h ⊢
  cases hmain : s.main with
  | spawning more =>
    simp only [hmain] at h ⊢
    refine ⟨h.1, ?_⟩
    have hi := (List.getElem?_eq_some_iff.mp hhead).1
    rw [hset, ← set_append_left i rest hi]
    apply h.2.snoc
    rw [getElem?_append_left hi]
    exact hhead
  | receiving =>
    simp only [hmain] at h ⊢
    refine ⟨h.1, ?_⟩
    rw [hset, ← append_assoc]
    exact h.2.snoc hhead
  | exhausted slot =>
    cases slot with
    | none =>
      simp only [hmain] at h
      exact absurd h.1 hrunning
    | some msg =>
      simp only [hmain] at h ⊢
      exact h.send hparser
  | joining result =>
    cases result with
    | ok n =>
      simp only [hmain] at h
      exact absurd h.1.1 hrunning
    | error msg =>
      simp only [hmain] at h ⊢
      rcases h with h | h
      · exact .inl (h.send hparser)
      · exact absurd h hrunning
  | returned result =>
    cases result with
    | ok n =>
      simp only [hmain] at h
      exact absurd h.1.1 hrunning
    | error msg => trivial

/-- A parser without messages ends. -/
theorem PhaseOk.finish (h : PhaseOk b files s) (hparser : s.parsers[i]? = some (some [])) :
    PhaseOk b files { s with parsers := s.parsers.set i none } := by
  have htodos := todos_finish hparser
  have hrunning : ¬s.Ended := fun hended => hended.not_running hparser
  unfold PhaseOk at h ⊢
  cases hmain : s.main with
  | spawning more =>
    simp only [hmain] at h ⊢
    rw [htodos]
    exact h
  | receiving =>
    simp only [hmain] at h ⊢
    rw [htodos]
    exact h
  | exhausted slot =>
    cases slot with
    | none =>
      simp only [hmain] at h
      exact absurd h.1 hrunning
    | some msg =>
      simp only [hmain, Outstanding] at h ⊢
      rw [htodos]
      exact h
  | joining result =>
    cases result with
    | ok n =>
      simp only [hmain] at h
      exact absurd h.1.1 hrunning
    | error msg =>
      simp only [hmain, Outstanding] at h ⊢
      rw [htodos]
      exact h.imp id fun hended => absurd hended hrunning
  | returned result =>
    cases result with
    | ok n =>
      simp only [hmain] at h
      exact absurd h.1.1 hrunning
    | error msg => trivial

theorem takes_nil {xss zss : List (List Message)} (h : Takes xss [] zss) : zss = xss := by
  cases h
  rfl

/-- Every step keeps the invariant. -/
theorem Inv.step (h : Inv b files s) (hstep : Step b s s') : Inv b files s' := by
  rcases h with ⟨hbound, hphase⟩
  have hold := hphase
  unfold PhaseOk at hold
  cases hstep with
  | spawn f more hmain =>
    rw [hmain] at hold
    refine ⟨hbound, hold.1, ?_⟩
    have htodos : todos (s.parsers ++ [some f.messages]) = todos s.parsers ++ [f.messages] := by simp [todos]
    simp only [htodos, append_assoc]
    exact hold.2
  | listen hmain =>
    rw [hmain] at hold
    refine ⟨hbound, ?_, ?_⟩
    · intro before hbefore hne
      simp only [hold.1, prefix_nil] at hbefore hne
      exact absurd hbefore hne
    · have htakes := hold.2
      simpa [hold.1] using htakes
  | send i m rest hparser hroom =>
    refine ⟨?_, hphase.send hparser⟩
    simp only [length_append, length_singleton]
    omega
  | finish i hparser => exact ⟨hbound, hphase.finish hparser⟩
  -- the consumer goes on only where the quads so far ask for more
  | receive q rest hmain hasks hchannel =>
    rw [hmain] at hold
    rw [hchannel] at hbound
    refine ⟨Nat.le_of_succ_le hbound, ?_⟩
    simp only [hmain]
    constructor
    · intro before hbefore hne
      rcases prefix_concat_iff.mp hbefore with heq | hbefore
      · exact absurd heq hne
      · by_cases heq : before = s.handed
        · rw [heq]
          exact hasks
        · exact hold.1 before hbefore heq
    · have htakes := hold.2
      rw [hchannel] at htakes
      simpa using htakes
  -- what the parsers still send after the error is no longer received
  | receiveError msg rest hmain hasks hchannel =>
    rw [hmain] at hold
    rw [hchannel] at hbound
    refine ⟨Nat.le_of_succ_le hbound, ?_⟩
    have htakes := hold.2
    rw [hchannel] at htakes
    rcases htakes.split with ⟨rest₁, hhanded, hmore⟩
    have hnext : Takes rest₁ ([.error msg] ++ rest) (todos s.parsers) := hmore
    rcases hnext.split with ⟨rest₂, herror, hchan⟩
    refine ⟨total rest₂, ⟨s.handed, rest₁, hhanded, hold.1, .inr ⟨hasks, msg, rest₂, herror, rfl⟩⟩, ?_⟩
    exact hchan.total_eq.symm
  | receiveClosed hmain hasks hchannel hended =>
    rw [hmain] at hold
    refine ⟨hbound, hended, hchannel, ?_⟩
    have htakes := hold.2
    rw [hchannel, append_nil] at htakes
    exact htakes
  | bail hmain hbails =>
    rw [hmain] at hold
    refine ⟨hbound, .inl ?_⟩
    rcases hold.2.split with ⟨rest, hhanded, hchan⟩
    exact ⟨total rest, ⟨s.handed, rest, hhanded, hold.1, .inl ⟨hbails, rfl⟩⟩, hchan.total_eq.symm⟩
  | commit slot hmain hcommits =>
    rw [hmain] at hold
    cases slot with
    | none => exact ⟨hbound, hold, rfl⟩
    | some msg => exact ⟨hbound, .inl hold⟩
  | abort slot hmain haborts =>
    rw [hmain] at hold
    cases slot with
    | none => exact ⟨hbound, .inr hold.1⟩
    | some msg => exact ⟨hbound, .inl hold⟩
  | join result hmain hended =>
    rw [hmain] at hold
    cases result with
    | ok n => exact ⟨hbound, hold⟩
    | error msg => exact ⟨hbound, trivial⟩

/-! ## Somebody can move -/

theorem parser_moves (h : ¬s.Ended) (hroom : ∀ (i : Nat) (m : Message) (rest : List Message),
    s.parsers[i]? = some (some (m :: rest)) → s.channel.length < channelBound) : ∃ s', Step b s s' := by
  simp only [Ended, not_forall] at h
  rcases h with ⟨p, hp, hne⟩
  rcases getElem?_of_mem hp with ⟨i, hi⟩
  cases p with
  | none => exact absurd rfl hne
  | some todo =>
    cases todo with
    | nil => exact ⟨_, .finish i hi⟩
    | cons m rest => exact ⟨_, .send i m rest hi (hroom i m rest hi)⟩

/-- Where no more than `channelBound` messages can be left, no order of steps gets stuck. -/
theorem Inv.not_stuck (h : Inv b files s) (hleft : ∀ left, Stops b files left → left ≤ channelBound) :
    ¬s.Stuck b := by
  rintro ⟨hmain, hstuck⟩
  rcases h with ⟨-, hphase⟩
  unfold PhaseOk at hphase
  cases hm : s.main with
  | spawning rest =>
    cases rest with
    | nil => exact hstuck _ (.listen hm)
    | cons f rest => exact hstuck _ (.spawn f rest hm)
  | receiving =>
    rcases b.asks_or_bails s.handed with hasks | hbails
    · cases hchannel : s.channel with
      | cons m rest =>
        cases m with
        | ok q => exact hstuck _ (.receive q rest hm hasks hchannel)
        | error msg => exact hstuck _ (.receiveError msg rest hm hasks hchannel)
      | nil =>
        -- on an empty channel a parser that has not ended can send
        by_cases hended : s.Ended
        · exact hstuck _ (.receiveClosed hm hasks hchannel hended)
        · have hroom : s.channel.length < channelBound := by
            rw [hchannel]
            decide
          rcases parser_moves hended (fun _ _ _ _ => hroom) with ⟨s', hs'⟩
          exact hstuck s' hs'
    · exact hstuck _ (.bail hm hbails)
  | exhausted slot =>
    rcases b.commits_or_aborts s.handed with hcommits | haborts
    · exact hstuck _ (.commit slot hm hcommits)
    · exact hstuck _ (.abort slot hm haborts)
  | joining result =>
    by_cases hended : s.Ended
    · exact hstuck _ (.join result hm hended)
    · -- what is left fits into the channel, so a parser that still sends has room
      rw [hm] at hphase
      have hroom : ∀ (i : Nat) (m : Message) (rest : List Message),
          s.parsers[i]? = some (some (m :: rest)) → s.channel.length < channelBound := by
        intro i m rest hparser
        have hsend := send_total hparser
        cases result with
        | ok n => exact absurd hphase.1.1 hended
        | error msg =>
          rcases hphase.resolve_right hended with ⟨left, hstops, htotal⟩
          have hfits := hleft left hstops
          omega
      rcases parser_moves hended hroom with ⟨s', hs'⟩
      exact hstuck s' hs'
  | returned result => exact hmain result hm

/-! ## How it gets stuck -/

/-- Steps the parsers can still make without the main thread. -/
def work (s : Load) : Nat := total (todos s.parsers) + s.parsers.countP Option.isSome

theorem work_finish (hparser : s.parsers[i]? = some (some [])) :
    work { s with parsers := s.parsers.set i none } < work s := by
  rcases List.getElem?_eq_some_iff.mp hparser with ⟨hi, hget⟩
  have hcount := countP_set (p := Option.isSome) (l := s.parsers) (a := none) hi
  have hpos : 0 < s.parsers.countP Option.isSome :=
    countP_pos_iff.mpr ⟨some [], mem_of_getElem? hparser, rfl⟩
  rw [hget] at hcount
  simp only [work, todos_finish hparser]
  simp at hcount
  omega

/-- With more messages left than the channel holds the senders come to a halt. -/
theorem reaches_stuck {result : Except String Nat} (hmain : s.main = .joining result)
    (hbound : s.channel.length ≤ channelBound)
      (hleft : channelBound < s.channel.length + total (todos s.parsers)) :
    ∃ s', Relation.ReflTransGen (Step b) s s' ∧ s'.Stuck b := by
  induction hn : work s using Nat.strongRecOn generalizing s with
  | ind n ih =>
    by_cases hstuck : ∃ s', Step b s s'
    · rcases hstuck with ⟨s', hs'⟩
      cases hs' with
      | send i m rest hparser hroom =>
        have hsend := send_total hparser
        have hcount : (s.parsers.set i (some rest)).countP Option.isSome = s.parsers.countP Option.isSome := by
          rcases List.getElem?_eq_some_iff.mp hparser with ⟨hi, hget⟩
          rw [countP_set hi, hget]
          have hpos : 0 < s.parsers.countP Option.isSome :=
            countP_pos_iff.mpr ⟨_, mem_of_getElem? hparser, rfl⟩
          simp
          omega
        have hwork : work { s with parsers := s.parsers.set i (some rest), channel := s.channel ++ [m] } < n := by
          rw [← hn]
          simp only [work]
          omega
        have hlen : (s.channel ++ [m]).length = s.channel.length + 1 := by simp
        rcases ih _ hwork (s := ⟨s.main, s.parsers.set i (some rest), s.channel ++ [m], s.handed⟩) hmain
          (by simp only [hlen]; omega) (by simp only [hlen]; omega) rfl with ⟨s', hreach, hs'⟩
        exact ⟨s', .head (.send i m rest hparser hroom) hreach, hs'⟩
      | finish i hparser =>
        have htodos := todos_finish hparser
        have hwork : work { s with parsers := s.parsers.set i none } < n := by
          rw [← hn]
          exact work_finish hparser
        rcases ih _ hwork (s := ⟨s.main, s.parsers.set i none, s.channel, s.handed⟩) hmain hbound
          (by simp only [htodos]; exact hleft) rfl with ⟨s', hreach, hs'⟩
        exact ⟨s', .head (.finish i hparser) hreach, hs'⟩
      | join result' hmain' hended =>
        have hzero := ended_todos hended
        omega
      | spawn f rest hm => rw [hmain] at hm; cases hm
      | listen hm => rw [hmain] at hm; cases hm
      | receive q rest hm => rw [hmain] at hm; cases hm
      | receiveError msg rest hm => rw [hmain] at hm; cases hm
      | receiveClosed hm => rw [hmain] at hm; cases hm
      | bail hm => rw [hmain] at hm; cases hm
      | commit slot hm => rw [hmain] at hm; cases hm
      | abort slot hm => rw [hmain] at hm; cases hm
    · refine ⟨s, .refl, ?_, ?_⟩
      · intro result' hm
        rw [hmain] at hm
        cases hm
      · intro s' hs'
        exact hstuck ⟨s', hs'⟩

theorem reaches_receiving (rest : List InputFile) (parsers : List (Option (List Message))) :
    Relation.ReflTransGen (Step b) ⟨.spawning rest, parsers, [], []⟩
      ⟨.receiving, parsers ++ rest.map fun f => some f.messages, [], []⟩ := by
  induction rest generalizing parsers with
  | nil =>
    rw [map_nil, append_nil]
    exact .single (.listen rfl)
  | cons f rest ih =>
    refine .head (.spawn f rest rfl) ?_
    have hrest := ih (parsers ++ [some f.messages])
    rwa [append_assoc] at hrest

theorem sends_head {xss : List (List Message)} {handed : List Quad} (hhead : xss[i]? = some (m :: rest)) :
    Step b ⟨.receiving, xss.map some, [], handed⟩ ⟨.receiving, (xss.set i rest).map some, [m], handed⟩ := by
  rw [map_set]
  exact .send i m rest (by simp [hhead]) (Nat.zero_lt_succ 4095)

theorem reaches_handed {xss zss : List (List Message)} {handed qs : List Quad}
    (h : Takes xss (qs.map .ok) zss) (hasks : ∀ before, before <+: qs → before ≠ qs → b.asks (handed ++ before)) :
    Relation.ReflTransGen (Step b) ⟨.receiving, xss.map some, [], handed⟩
      ⟨.receiving, zss.map some, [], handed ++ qs⟩ := by
  induction qs generalizing xss handed with
  | nil =>
    rw [takes_nil h, append_nil]
  | cons q qs ih =>
    cases h with
    | cons i hhead htail =>
      have hask : b.asks handed := by
        have hnil := hasks [] nil_prefix (by simp)
        rwa [append_nil] at hnil
      have hmore : ∀ before, before <+: qs → before ≠ qs → b.asks ((handed ++ [q]) ++ before) := by
        intro before hbefore hne
        rw [append_assoc]
        exact hasks (q :: before) ((prefix_cons_inj q).mpr hbefore) (by simpa using hne)
      have hrest := ih htail hmore
      rw [append_assoc] at hrest
      exact .head (sends_head hhead) (.head (.receive q [] rfl hask rfl) hrest)

/-- Where more than `channelBound` messages can be left, some order of steps gets stuck. -/
theorem stuck_of_stops (hmake : files.forM InputFile.makeParser = .ok ()) {left : Nat}
    (hstops : Stops b files left) (hleft : channelBound < left) : ∃ s, Reachable b files s ∧ s.Stuck b := by
  rcases hstops with ⟨handed, rest, htakes, hasks, hstop⟩
  have hstart : start files = ⟨.spawning files, [], [], []⟩ := by simp [start, hmake]
  have hreceiving : Reachable b files ⟨.receiving, rest.map some, [], handed⟩ := by
    unfold Reachable
    rw [hstart]
    refine (reaches_receiving files []).trans ?_
    have hhanded : Relation.ReflTransGen (Step b)
        ⟨.receiving, (files.map InputFile.messages).map some, [], []⟩
          ⟨.receiving, rest.map some, [], [] ++ handed⟩ :=
      reaches_handed htakes (by simpa using hasks)
    rw [map_map, nil_append] at hhanded
    exact hhanded
  have htodos : ∀ xss : List (List Message), todos (xss.map some) = xss := by
    intro xss
    simp [todos]
  rcases hstop with ⟨hbails, rfl⟩ | ⟨hask, e, rest', herror, rfl⟩
  · rcases reaches_stuck (b := b) (s := ⟨.joining failed, rest.map some, [], handed⟩) rfl (Nat.zero_le _)
      (by simp only [htodos]; simpa using hleft) with ⟨s', hreach, hs'⟩
    exact ⟨s', hreceiving.trans (.head (.bail rfl hbails) hreach), hs'⟩
  · cases herror with
    | @cons _ _ _ _ more i hhead htail =>
      have hrest := takes_nil htail
      subst hrest
      have hend : ∃ result, Relation.ReflTransGen (Step b)
        ⟨.exhausted (some e), (rest.set i more).map some, [], handed⟩
          ⟨.joining result, (rest.set i more).map some, [], handed⟩ := by
        rcases b.commits_or_aborts handed with hcommits | haborts
        · exact ⟨_, .single (.commit (some e) rfl hcommits)⟩
        · exact ⟨_, .single (.abort (some e) rfl haborts)⟩
      rcases hend with ⟨result, hend⟩
      rcases reaches_stuck (b := b) (s := ⟨.joining result, (rest.set i more).map some, [], handed⟩) rfl (Nat.zero_le _)
        (by simp only [htodos]; simpa using hleft) with ⟨s', hreach, hs'⟩
      refine ⟨s', hreceiving.trans (.head (sends_head hhead) (.head (.receiveError e [] rfl hask rfl) ?_)), hs'⟩
      exact hend.trans hreach

/-! ## Every order of steps -/

theorem inv_start (hmake : files.forM InputFile.makeParser = .ok ()) : Inv b files (start files) := by
  have hstart : start files = ⟨.spawning files, [], [], []⟩ := by simp [start, hmake]
  rw [hstart]
  exact ⟨Nat.zero_le _, rfl, .nil _⟩

theorem Reachable.inv (hmake : files.forM InputFile.makeParser = .ok ())
    (h : Reachable b files s) : Inv b files s := by
  induction h with
  | refl => exact inv_start hmake
  | tail _ hstep ih => exact ih.step hstep

theorem Reachable.unprepared {e : String} (hmake : files.forM InputFile.makeParser = .error e)
    (h : Reachable b files s) : s = ⟨.returned (.error e), [], [], []⟩ := by
  have hstart : start files = ⟨.returned (.error e), [], [], []⟩ := by simp [start, hmake]
  induction h with
  | refl => exact hstart
  | tail _ hstep ih =>
    rw [ih] at hstep
    cases hstep with
    | send i m rest hparser => simp at hparser
    | finish i hparser => simp at hparser
    | spawn f rest hm => cases hm
    | listen hm => cases hm
    | receive q rest hm => cases hm
    | receiveError msg rest hm => cases hm
    | receiveClosed hm => cases hm
    | bail hm => cases hm
    | commit slot hm => cases hm
    | abort slot hm => cases hm
    | join result hm => cases hm

/-- When everything has been received, no file has failed and every quad has been handed
over once. -/
theorem Done.complete (hmake : files.forM InputFile.makeParser = .ok ()) (h : Done files s) :
    (∀ f ∈ files, ¬f.Fails) ∧ s.handed.Perm (files.flatMap InputFile.quads) := by
  rcases h with ⟨hended, -, htakes⟩
  have hempty : (todos s.parsers).flatten = [] := by
    have hzero := ended_todos hended
    rw [total, ← length_flatten] at hzero
    exact length_eq_zero_iff.mp hzero
  have hperm := htakes.perm
  rw [hempty, append_nil] at hperm
  have hnone : ∀ msg, Except.error msg ∉ (files.map InputFile.messages).flatten := by
    intro msg hmsg
    rcases mem_map.mp (hperm.mem_iff.mp hmsg) with ⟨q, -, hq⟩
    cases hq
  rcases messages_flatten hmake hnone with ⟨hfails, hflat⟩
  refine ⟨hfails, ?_⟩
  rw [hflat] at hperm
  -- `Except.ok` is injective
  have hback := (hperm.filterMap Except.toOption).symm
  simpa [filterMap_map, Function.comp_def, Except.toOption] using hback

end Load

open Load

/-- The load returns whatever the order of steps exactly if the channel holds what is left
whenever the main thread may stop receiving. -/
theorem loads_iff (b : BulkLoad) (files : List InputFile) :
    Loads b files ↔
      (files.forM InputFile.makeParser = .ok () → ∀ left, Stops b files left → left ≤ channelBound) := by
  constructor
  · intro h hmake left hstops
    by_contra hleft
    rcases stuck_of_stops hmake hstops (by omega) with ⟨s, hreach, hstuck⟩
    exact h.returns s hreach hstuck
  · intro hleft
    cases hmake : files.forM InputFile.makeParser with
    | error e =>
      constructor
      · rintro s hreach ⟨hmain, -⟩
        rw [hreach.unprepared hmake] at hmain
        exact hmain _ rfl
      · intro s n hreach hmain
        rw [hreach.unprepared hmake] at hmain
        cases hmain
      · intro s result hreach hmain _
        rw [hreach.unprepared hmake] at hmain
        cases hmain
        exact ⟨e, rfl⟩
    | ok _ =>
      constructor
      · exact fun s hreach => (hreach.inv hmake).not_stuck (hleft hmake)
      · intro s n hreach hmain
        have hphase := (hreach.inv hmake).2
        simp only [PhaseOk, hmain] at hphase
        exact ⟨hphase.2, (hphase.1.complete hmake).2⟩
      · rintro s result hreach hmain ⟨f, hf, hfails⟩
        cases result with
        | error e => exact ⟨e, rfl⟩
        | ok n =>
          have hphase := (hreach.inv hmake).2
          simp only [PhaseOk, hmain] at hphase
          exact absurd hfails ((hphase.1.complete hmake).1 f hf)

section Samples

open Dictionary DictCompact

/-- A file that does not exist, and one of 4097 quads. -/
def missingAndLong : List InputFile :=
  [⟨"missing.nt", "N-Triples", .ok (), .error "No such file or directory"⟩,
    ⟨"long.nt", "N-Triples", .ok (), .ok (List.replicate 4097 (.ok (LoudsStore.sampleQuad "a")))⟩]

/-- The main thread takes the error of the missing file first and then waits for the
parser of the long one, which has filled the channel. -/
theorem load_hangs :
    ¬∀ files, Loads (.ofStore (api sourceBlockSize) (LoudsStore.openNew sourceBlockSize none)) files := by
  intro hclaim
  have hleft := (loads_iff _ _).mp (hclaim missingAndLong) rfl
  have hlong : (parsed "N-Triples" (List.replicate 4097 (.ok (LoudsStore.sampleQuad "a")))).length = 4097 := by
    rw [parsed_replicate, length_replicate]
  have hstops : Stops (.ofStore (api sourceBlockSize) (LoudsStore.openNew sourceBlockSize none)) missingAndLong
      4097 := by
    refine ⟨[], _, .nil _, ?_, .inr ⟨rfl, "failed to open missing.nt", _, .cons 0 rfl (.nil _), ?_⟩⟩
    · intro before hbefore hne
      exact absurd (prefix_nil.mp hbefore) hne
    · simp only [missingAndLong, InputFile.messages, map_cons, map_nil, set_cons_zero, total,
        length_nil, hlong]
      rfl
  have hfits := hleft 4097 hstops
  exact absurd hfits (by decide)

end Samples

end Nova.Cli
