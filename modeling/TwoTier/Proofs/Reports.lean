import TwoTier.Proofs.Outcome
import TwoTier.Proofs.Source.Places
import TwoTier.Session

/-! # Places that a session reports

Only two passes report places. Elaboration reports them in the source of the round, and evaluation
reports them in the literals that it is given, which are texts of their own.
-/

namespace TwoTier

open Source

/-- The place of the diagnostic, if it has one, lies in one of the texts. -/
def Diagnostic.In (texts : List String) (d : Diagnostic) : Prop :=
  ∀ s, d.span = some s → ∃ text ∈ texts, s.Within text.toList

theorem Diagnostic.in_of_none {d : Diagnostic} (texts : List String) (h : d.span = none) :
    d.In texts := by
  intro s hs
  rw [h] at hs
  cases hs

theorem CompileError.span_diagnostic (e : CompileError) : e.diagnostic.span = none := by
  cases e <;> rfl

/-- The texts that a pass can find at fault: the source of the round, or literals. -/
def Pass.texts (source : String) (options : Options) : Pass → List String
  | .elaborate => [source]
  | .evaluate => options.state.toList ++ options.data
  | .classify | .recognize | .factor | .validate | .synthesize => []

theorem Value.ofText_in {texts : List String} {text : String} (h : text ∈ texts) :
    FailsAs (Diagnostic.In texts) ((Value.ofText text).mapError LiteralError.diagnostic) := by
  refine FailsAs.mapError ?_
  unfold Value.ofText
  refine FailsAs.bind (FailsAs.mapError fun fault hfault s hs => ⟨text, h, ?_⟩) fun e => ?_
  · cases hds : fault.diagnostics with
    | nil => simp [LiteralError.diagnostic, hds] at hs
    | cons d ds =>
      refine within_of_read hfault d (by simp [hds]) s ?_
      simpa [LiteralError.diagnostic, hds] using hs
  · split
    · exact failsAs_error (Diagnostic.in_of_none _ rfl)
    · exact FailsAs.mapError fun _ _ => Diagnostic.in_of_none _ rfl

namespace Session

variable {options : Options} {s : Session} {p q : Pass} {ps : List Pass} {source : String}
    {ds : List Diagnostic}

theorem in_of_failure {α : Type} {texts : List String} {x : Except Diagnostic α}
    (h : FailsAs (Diagnostic.In texts) x) :
    ∀ d ∈ failure x, d.In texts := by
  cases x with
  | ok a => simp [failure]
  | error d => simpa [failure] using h d rfl

theorem evaluated_in (round : Expr) (form : Form) (options : Options) :
    FailsAs (Diagnostic.In (Pass.evaluate.texts source options))
    (evaluated round form options) := by
  unfold evaluated
  split
  · exact failsAs_error (Diagnostic.in_of_none _ rfl)
  · rename_i state hstate
    refine (Value.ofText_in (by simp [Pass.texts, hstate])).bind fun v => ?_
    refine (FailsAs.mapM fun text htext => Value.ofText_in (by simp [Pass.texts, htext])).bind
      fun vs => ?_
    refine (FailsAs.mapError fun _ _ => Diagnostic.in_of_none _ rfl).bind fun expected => ?_
    refine (FailsAs.mapError fun _ _ => Diagnostic.in_of_none _ rfl).bind fun actual => ?_
    split
    · exact failsAs_ok
    · exact failsAs_error (Diagnostic.in_of_none _ rfl)

theorem runPass_program (options : Options) (s : Session) (p : Pass) :
    (s.runPass options p).1.program = s.program := by
  cases p <;> simp only [runPass] <;> split <;> rfl

/-- One pass reports places in the texts it reads only. -/
theorem runPass_in (hparse : parse source = .ok s.program) (p : Pass) :
    ∀ d ∈ (s.runPass options p).2, d.In (p.texts source options) := by
  have compiling {ε α : Type} (texts : List String) (x : Except ε α) (k : ε → CompileError) :
      ∀ d ∈ failure (x.mapError fun e => (k e).diagnostic), d.In texts :=
    in_of_failure (FailsAs.mapError fun e _ => Diagnostic.in_of_none _ (k e).span_diagnostic)
  have missing (texts : List String) (what : String) : ∀ d ∈ [missing p what], d.In texts := by
    simpa using Diagnostic.in_of_none _ rfl
  cases p with
  | elaborate =>
    refine in_of_failure
      (FailsAs.mapError fun m hm span hspan => ⟨source, by simp [Pass.texts], ?_⟩)
    cases hspan
    exact (located_of_parse hparse).blames m hm
  | classify =>
    simp only [runPass]
    split
    · exact missing _ _
    · exact compiling _ _ _
  | recognize =>
    simp only [runPass]
    split
    · exact missing _ _
    · exact compiling _ _ _
  | factor =>
    simp only [runPass]
    split
    · exact missing _ _
    · exact compiling _ _ id
  | validate =>
    simp only [runPass]
    split
    · exact missing _ _
    · exact compiling _ _ _
  | synthesize =>
    simp only [runPass]
    split
    · exact missing _ _
    · exact in_of_failure (FailsAs.mapError fun _ _ => Diagnostic.in_of_none _ rfl)
  | evaluate =>
    simp only [runPass]
    split
    · exact in_of_failure (evaluated_in _ _ _)
    · exact missing _ _

theorem runPasses_in (hparse : parse source = .ok s.program)
    (hq : (q, ds) ∈ (s.runPasses options ps).passes) :
    ∀ d ∈ ds, d.In (q.texts source options) := by
  induction ps generalizing s with
  | nil => cases hq
  | cons p ps ih =>
    have hpass : ∀ d ∈ (s.runPass options p).2, d.In (p.texts source options) := runPass_in hparse p
    simp only [runPasses] at hq
    split at hq
    · cases List.mem_singleton.mp hq
      exact hpass
    · rcases List.mem_cons.mp hq with heq | hrest
      · cases heq
        exact hpass
      · refine ih ?_ hrest
        exact hparse.trans (by rw [← runPass_program options s p])

/-- Whatever a run to a pass says about a place can be told: the place lies in a text that its pass
has read, between characters of it, and it is shown by the line and the column there. For all passes
but evaluation the text is the source of the round. -/
theorem runTo_in (hparse : parse source = .ok s.program) (hq : (q, ds) ∈ (s.runTo options p).passes)
    {d : Diagnostic} (hd : d ∈ ds) {span : Span} (hspan : d.span = some span) :
    ∃ text ∈ q.texts source options, (q ≠ .evaluate → text = source) ∧
      span.start ≤ span.stop ∧ span.stop ≤ byteLength text.toList ∧
      Boundary text.toList span.start ∧ Boundary text.toList span.stop ∧
      ∀ file, ∃ before after, text.toList = before ++ after ∧ byteLength before = span.start ∧
        d.render? file text =
          some (file ++ s!":{lineAfter before}:{columnAfter before}: " ++ d.text) := by
  obtain ⟨text, htext, hwithin⟩ := runPasses_in hparse hq d hd span hspan
  refine ⟨text, htext, ?_, hwithin.ordered, hwithin.stops.le, hwithin.starts, hwithin.stops,
    d.render?_within hspan hwithin⟩
  cases q <;> simp_all [Pass.texts]

/-- A run of the source to the pass `p` has the pass `q` report the place `span`. -/
def Reports (source : String) (options : Options) (p q : Pass) (span : Span) : Prop :=
  ∃ tree ds d, parse source = .ok tree ∧ (q, ds) ∈ (runTo options { program := tree } p).passes ∧
    d ∈ ds ∧ d.span = some span

theorem reports_of_any {span : Span} (h : (parse source).toOption.any (fun tree =>
    (runTo options { program := tree } p).passes.any fun r =>
      r.1 == q && r.2.any fun d => d.span == some span) = true) :
    Reports source options p q span := by
  obtain ⟨tree, htree, h⟩ := except_any h
  simp only [List.any_eq_true, Bool.and_eq_true, beq_iff_eq] at h
  obtain ⟨⟨r, ds⟩, hr, rfl, d, hd, hspan⟩ := h
  exact ⟨tree, ds, d, htree, hr, hd, hspan⟩

def unboundName : String := "#é\nnope"

theorem runTo_in_unboundName : ∃ tree ds d, parse unboundName = .ok tree ∧
    (.elaborate, ds) ∈ (runTo {} { program := tree } .validate).passes ∧ d ∈ ds ∧
    d.span = some ⟨4, 8⟩ ∧
    Boundary unboundName.toList 4 ∧ Boundary unboundName.toList 8 ∧
    ∀ file, ∃ before after, unboundName.toList = before ++ after ∧ byteLength before = 4 ∧
      d.render? file unboundName =
      some (file ++ s!":{lineAfter before}:{columnAfter before}: " ++ d.text) := by
  have hreports : Reports unboundName {} .validate .elaborate ⟨4, 8⟩ :=
    reports_of_any (by decide +kernel)
  obtain ⟨tree, ds, d, hparse, hds, hd, hspan⟩ := hreports
  obtain ⟨text, -, hsource, -, -, hstart, hstop, hrender⟩ :=
    runTo_in (s := { program := tree }) hparse hds hd hspan
  cases hsource (by decide)
  exact ⟨tree, ds, d, hparse, hds, hd, hspan, hstart, hstop, hrender⟩

def commentedRound : String :=
  "#é\n(p: <int32@SERVER,\x7bint32\x7d@CLIENTS> -> let c = federated_broadcast(p[0]) in " ++
  "federated_map(<add<int32>, federated_zip_at_clients(<c, p[1]>)>))"

/-- A place in a literal need not be one in the source: it may be inside a character there. -/
theorem evaluate_inside_character : ∃ tree ds d span, parse commentedRound = .ok tree ∧
    (.evaluate, ds) ∈
      (runTo { template := .broadcast, state := some "  nope" }
        { program := tree } .evaluate).passes ∧
    d ∈ ds ∧ d.span = some span ∧ ¬ Boundary commentedRound.toList span.start ∧
    ∀ file, d.render? file commentedRound = none := by
  have hreports : Reports commentedRound { template := .broadcast, state := some "  nope" }
      .evaluate .evaluate ⟨2, 6⟩ :=
    reports_of_any (by decide +kernel)
  obtain ⟨tree, ds, d, hparse, hds, hd, hspan⟩ := hreports
  have hinside : before? 2 commentedRound.toList = none := by decide +kernel
  refine ⟨tree, ds, d, _, hparse, hds, hd, hspan, ?_,
    fun file => by simp [Diagnostic.render?, hspan, hinside]⟩
  rintro ⟨before, after, htext, hbefore⟩
  have hfound := before?_append before after
  rw [hbefore, ← htext, hinside] at hfound
  cases hfound

end Session

end TwoTier
