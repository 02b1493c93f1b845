import Mathlib.Data.List.Forall2
import Presolve.Log.Session

/-!
# One Log for All Requests

A log is set up once at most. Of a list of requests the first one that can be read sets it up,
and this is the only one that changes anything. The requests before it are refused, each for
what is wrong with it, and the filter is looked at before the form. Those after it are told
that there is a log, whatever they ask for.

None of this depends on how the library reads a filter or what it does with the log. It is
enough that a log can be set up if there is none, and that the library knows of a log when it
has been set up and at no other time.

## Main definitions

* `LogLibrary.Lawful`: What is expected of a library.
* `LogLibrary.Asks`: The filter and the form that a request asks for.
* `LogLibrary.Refuses`: What is wrong with a request.

## Theorems

* `LogLibrary.exists_asks_or_refuses`: A request can be read or there is something wrong with it.
* `LogLibrary.enable_of_asks`, `LogLibrary.enable_of_refuses`, `LogLibrary.enable_of_isSetUp`:
  One request.
* `LogLibrary.enableAll_of_refuses`, `LogLibrary.enableAll_of_isSetUp`: Requests without an
  effect.
* `LogLibrary.Lawful.enableAll_once`: Any list of requests.
* `Session.library_lawful`: The library that keeps the log of a session.
-/

namespace Presolve

namespace LogLibrary

variable {L : LogLibrary} {s : L.State} {q : LogRequest} {filter : L.Filter} {format : Format}
  {e : LogError}

/-- What is expected of a library, if nothing else in the program sets up a log. -/
structure Lawful (L : LogLibrary) : Prop where
  /-- A log that was set up is there, and there is no other. -/
  isSetUp_setUp : ∀ s filter format, L.isSetUp (L.setUp s filter format).2
    = (L.isSetUp s || (L.setUp s filter format).1.isOk)
  /-- A log can be set up where there is none. -/
  setUp_isOk : ∀ s filter format, L.isSetUp s = false → (L.setUp s filter format).1.isOk = true

/-- The request can be read, and this is what it asks for. -/
structure Asks (L : LogLibrary) (q : LogRequest) (filter : L.Filter) (format : Format) : Prop where
  filter : L.filterOf q.filterText = .ok filter
  format : q.format = .ok format

/-- The request cannot be read. The form counts only if there is nothing wrong with the
    filter. -/
inductive Refuses (L : LogLibrary) (q : LogRequest) : LogError → Prop
  | filter {detail : String} : lowered q.filterText ≠ "off" →
      L.readFilter q.filterText = .error detail → Refuses L q (.invalidFilter detail)
  | format {filter : L.Filter} {value : String} : L.filterOf q.filterText = .ok filter →
      q.ambientFormat = some value → lowered value ≠ "pretty" → lowered value ≠ "json" →
      Refuses L q (.invalidFormat value)

/-- The answers to requests none of which can be read. -/
def Refusals (L : LogLibrary) : List LogRequest → List (Except LogError Bool) → Prop :=
  List.Forall₂ fun q answer => ∃ e, L.Refuses q e ∧ answer = .error e

theorem filterOf_eq_error {text : String} :
    L.filterOf text = .error e
      ↔ lowered text ≠ "off" ∧ ∃ detail, L.readFilter text = .error detail ∧
        e = .invalidFilter detail := by
  rw [filterOf]
  by_cases hoff : lowered text = "off"
  · rw [if_pos hoff]
    exact iff_of_false (fun h => by cases h) fun h => h.1 hoff
  · rw [if_neg hoff]
    cases L.readFilter text with
    | error detail =>
        constructor
        · rintro ⟨⟩
          exact ⟨hoff, detail, rfl, rfl⟩
        · rintro ⟨-, _, ⟨⟩, rfl⟩
          rfl
    | ok filter =>
        refine iff_of_false (fun h => by cases h) ?_
        rintro ⟨-, _, ⟨⟩, -⟩

theorem format_eq_error :
    q.format = .error e
      ↔ ∃ value, q.ambientFormat = some value ∧ lowered value ≠ "pretty" ∧
        lowered value ≠ "json" ∧ e = .invalidFormat value := by
  rw [LogRequest.format]
  cases q.ambientFormat with
  | none =>
      refine iff_of_false (fun h => by cases h) ?_
      rintro ⟨_, ⟨⟩, -⟩
  | some value =>
      rw [Option.elim_some, Format.ofText]
      split <;> simp_all [eq_comm]

/-- A request can be read or there is something wrong with it. -/
theorem exists_asks_or_refuses (L : LogLibrary) (q : LogRequest) :
    (∃ filter format, L.Asks q filter format) ∨ ∃ e, L.Refuses q e := by
  cases hfilter : L.filterOf q.filterText with
  | error e =>
      rcases filterOf_eq_error.mp hfilter with ⟨hoff, detail, hread, -⟩
      exact Or.inr ⟨_, .filter hoff hread⟩
  | ok filter =>
      cases hformat : q.format with
      | error e =>
          rcases format_eq_error.mp hformat with ⟨value, hvalue, hpretty, hjson, -⟩
          exact Or.inr ⟨_, .format hfilter hvalue hpretty hjson⟩
      | ok format => exact Or.inl ⟨filter, format, hfilter, hformat⟩

/-- Where there is a log a request is not even looked at. -/
theorem enable_of_isSetUp (hs : L.isSetUp s = true) (q : LogRequest) :
    L.enable s q = (.ok false, s) := by
  rw [enable, if_pos hs]

/-- A request that cannot be read is refused for what is wrong with it, and has no effect. -/
theorem enable_of_refuses (hs : L.isSetUp s = false) (h : L.Refuses q e) :
    L.enable s q = (.error e, s) := by
  rw [enable, hs, if_neg Bool.false_ne_true]
  cases h with
  | filter hoff hread => rw [filterOf_eq_error.mpr ⟨hoff, _, hread, rfl⟩]
  | format hfilter hvalue hpretty hjson =>
      rw [hfilter, format_eq_error.mpr ⟨_, hvalue, hpretty, hjson, rfl⟩]

/-- A request that can be read sets up the log it asks for. -/
theorem Lawful.enable_of_asks (h : L.Lawful) (hs : L.isSetUp s = false)
    (hq : L.Asks q filter format) :
    ∃ s', L.setUp s filter format = (.ok (), s') ∧ L.isSetUp s' = true ∧
      L.enable s q = (.ok true, s') := by
  have hok := h.setUp_isOk s filter format hs
  have hset := h.isSetUp_setUp s filter format
  rw [hok, Bool.or_true] at hset
  rcases hresult : L.setUp s filter format with ⟨result, s'⟩
  rw [hresult] at hok hset
  cases result with
  | error detail => cases hok
  | ok _ =>
      refine ⟨s', rfl, hset, ?_⟩
      rw [enable, hs, if_neg Bool.false_ne_true, hq.filter, hq.format]
      simp only [hresult]

section Run

variable {s' s'' : L.State} {qs qs' : List LogRequest}
  {answers answers' : List (Except LogError Bool)}

theorem enableAll_cons {answer : Except LogError Bool} (h : L.enable s q = (answer, s'))
    (h' : L.enableAll s' qs = (answers, s'')) :
    L.enableAll s (q :: qs) = (answer :: answers, s'') := by
  simp only [enableAll, h, h']

theorem enableAll_append (h : L.enableAll s qs = (answers, s'))
    (h' : L.enableAll s' qs' = (answers', s'')) :
    L.enableAll s (qs ++ qs') = (answers ++ answers', s'') := by
  induction qs generalizing s answers with
  | nil =>
      cases h
      exact h'
  | cons q qs ih =>
      cases h
      exact enableAll_cons rfl (ih rfl)

/-- As long as no request can be read there is no log. -/
theorem enableAll_of_refuses (hs : L.isSetUp s = false) (h : ∀ q ∈ qs, ∃ e, L.Refuses q e) :
    ∃ refusals, L.Refusals qs refusals ∧ L.enableAll s qs = (refusals, s) := by
  induction qs with
  | nil => exact ⟨[], .nil, rfl⟩
  | cons q qs ih =>
      rw [List.forall_mem_cons] at h
      rcases h.1 with ⟨e, he⟩
      rcases ih h.2 with ⟨refusals, hrefusals, hall⟩
      exact ⟨.error e :: refusals, .cons ⟨e, he, rfl⟩ hrefusals,
        enableAll_cons (enable_of_refuses hs he) hall⟩

/-- Once there is a log, requests have no effect. -/
theorem enableAll_of_isSetUp (hs : L.isSetUp s = true) (qs : List LogRequest) :
    L.enableAll s qs = (List.replicate qs.length (.ok false), s) := by
  induction qs with
  | nil => rfl
  | cons q qs ih => exact enableAll_cons (enable_of_isSetUp hs q) ih

/-- Of a list of requests the first one that can be read sets up the log it asks for. Those
    before it are refused and have no effect, and so do those after it, which are told that
    there is a log. -/
theorem Lawful.enableAll_once (h : L.Lawful) (hs : L.isSetUp s = false) :
    (∀ qs : List LogRequest, (∀ q ∈ qs, ∀ filter format, ¬ L.Asks q filter format) →
      ∃ refusals, L.Refusals qs refusals ∧ L.enableAll s qs = (refusals, s)) ∧
    ∀ (before : List LogRequest) (q : LogRequest) (after : List LogRequest) (filter : L.Filter)
      (format : Format), (∀ q' ∈ before, ∀ filter format, ¬ L.Asks q' filter format) →
      L.Asks q filter format →
      ∃ refusals s', L.Refusals before refusals ∧ L.setUp s filter format = (.ok (), s') ∧
        L.isSetUp s' = true ∧
        L.enableAll s (before ++ q :: after)
          = (refusals ++ .ok true :: List.replicate after.length (.ok false), s') := by
  have hrefused (qs : List LogRequest)
      (hqs : ∀ q ∈ qs, ∀ filter format, ¬ L.Asks q filter format) :
      ∃ refusals, L.Refusals qs refusals ∧ L.enableAll s qs = (refusals, s) := by
    refine enableAll_of_refuses hs fun q hq => ?_
    refine (L.exists_asks_or_refuses q).resolve_left ?_
    rintro ⟨filter, format, hasks⟩
    exact hqs q hq filter format hasks
  refine ⟨hrefused, fun before q after filter format hbefore hq => ?_⟩
  rcases hrefused before hbefore with ⟨refusals, hrefusals, hall⟩
  rcases h.enable_of_asks hs hq with ⟨s', hsetUp, hs', henable⟩
  exact ⟨refusals, s', hrefusals, hsetUp, hs',
    enableAll_append hall (enableAll_cons henable (enableAll_of_isSetUp hs' after))⟩

end Run

end LogLibrary

theorem Session.library_lawful : Session.library.Lawful where
  isSetUp_setUp s filter format := by
    cases hlog : s.log.isSome <;> simp [library, hlog, Except.isOk, Except.toBool]
  setUp_isOk s filter format hs := by
    have hlog : s.log.isSome = false := hs
    simp [library, hlog, Except.isOk, Except.toBool]

/-- The first two requests are refused for their form and for their filter. The third one takes
    both from the settings around the program, and the last one could not be read. -/
theorem Session.enableAll_once_refused :
    (∃ refusals s', library.Refusals [⟨some "debug", none, some "xml"⟩,
        ⟨some "boundfold_core=loud", none, some "xml"⟩] refusals ∧
      library.setUp {} ⟨[⟨some "boundfold_core", some .debug⟩]⟩ .json = (.ok (), s') ∧
      library.isSetUp s' = true ∧
      library.enableAll {} ([⟨some "debug", none, some "xml"⟩,
          ⟨some "boundfold_core=loud", none, some "xml"⟩] ++
          ⟨none, some "boundfold_core=debug", some "JSON"⟩ ::
          [⟨some "info", none, none⟩, ⟨some "?", none, some ""⟩])
        = (refusals ++ .ok true :: List.replicate 2 (.ok false), s')) ∧
    Session.enableAll {} [⟨some "debug", none, some "xml"⟩,
        ⟨some "boundfold_core=loud", none, some "xml"⟩,
        ⟨none, some "boundfold_core=debug", some "JSON"⟩,
        ⟨some "info", none, none⟩, ⟨some "?", none, some ""⟩]
      = ([.error (.invalidFormat "xml"), .error (.invalidFilter FilterError.unknownLevel.message),
        .ok true, .ok false, .ok false],
        ⟨some (⟨[⟨some "boundfold_core", some .debug⟩]⟩, .json)⟩) := by
  refine ⟨(library_lawful.enableAll_once (s := ({} : Session)) rfl).2 _ _ _ _ _ ?_ ⟨rfl, rfl⟩, rfl⟩
  rw [List.forall_mem_cons, List.forall_mem_singleton]
  constructor
  · intro filter format hasks
    cases hasks.format
  · intro filter format hasks
    cases hasks.filter

end Presolve
