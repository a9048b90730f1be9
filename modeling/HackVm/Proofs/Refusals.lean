import HackVm.Proofs.Session

/-!
# Refusals

A request that is refused leaves nothing behind that a later one could
find. After a command that fails the generator differs from the one before
in a single respect: something has been asked of it (`Generator.begun`),
so that a bootstrap comes too late. After a bootstrap that fails it is the
very same.

That this one respect matters to bootstraps alone is a statement on two
runs of the same requests. The run to compare with is that of the
generator before the failure, with its bootstraps turned away
(`Generator.serveLate`): one request keeps the two generators alike
(`Generator.serve_begun`), hence a row of requests of any length shows the
same (`Generator.watch_begun`).
-/

namespace HackVm

/-- The answer to a request, and all that can be asked of the generator
behind it. -/
structure Observation where
  answer : Answer
  file : String
  labels : Labels
  translated : Nat
  resolve : Segment → UInt16 → Located Command → Except Fault Cell

def tooLate : Answer := some (.error ⟨.misplacedBootstrap, .nowhere⟩)

/-- What is observed of the request where bootstraps are turned away, if
this is observed where they fail anyway. -/
def Observation.late : Request → Observation → Observation
  | .bootstrap _, o => { o with answer := tooLate }
  | _, o => o

namespace Generator

variable {g : Generator}

def observe (answer : Answer) (g : Generator) : Observation :=
  ⟨answer, g.file, g.labels, g.translated, g.resolve⟩

/-- Serve a row of requests in the way that is given. -/
def watch (serve : Generator → Request → Answer × Generator) (g : Generator) :
    List Request → List Observation
  | [] => []
  | r :: rest => observe (serve g r).1 (serve g r).2 :: watch serve (serve g r).2 rest

/-- Serve a request, but turn every bootstrap away. -/
def serveLate (g : Generator) : Request → Answer × Generator
  | .bootstrap _ => (tooLate, g)
  | r => g.serve r

/-- The generator once something has been asked of it. -/
def begun (g : Generator) : Generator := { g with started := true }

theorem observe_begun (answer : Answer) (g : Generator) :
    observe answer g.begun = observe answer g := rfl

/-! ## Failures -/

theorem translate_of_error {c : Located Command} {fault : Fault}
    (h : (g.translate c).1 = .error fault) : (g.translate c).2 = g.begun := by
  rw [translate] at h ⊢
  cases hblock : Code.block g.file g.comments g.labels c.node with
  | error cause => rfl
  | ok code =>
    rw [hblock] at h
    cases h

theorem bootstrap_of_error {entry : String} {fault : Fault}
    (h : (g.bootstrap entry).1 = .error fault) : (g.bootstrap entry).2 = g := by
  rw [bootstrap] at h ⊢
  split
  · rfl
  · rename_i hstarted
    rw [if_neg hstarted] at h
    split
    · rename_i hentry
      rw [if_pos hentry] at h
      cases h
    · rfl

/-! ## Two runs of the same requests -/

theorem translate_begun (g : Generator) (c : Located Command) :
    g.begun.translate c = ((g.translate c).1, (g.translate c).2.begun) := by
  rw [translate, translate]
  have hblock : Code.block g.begun.file g.begun.comments g.begun.labels c.node =
      Code.block g.file g.comments g.labels c.node := rfl
  rw [hblock]
  cases Code.block g.file g.comments g.labels c.node <;> rfl

theorem translateAll_begun (g : Generator) (cs : List (Located Command)) :
    g.begun.translateAll cs = ((g.translateAll cs).1, (g.translateAll cs).2.begun) := by
  induction cs generalizing g with
  | nil => rfl
  | cons c rest ih =>
    rw [translateAll, translateAll, translate_begun]
    rcases g.translate c with ⟨fault | block, g₁⟩
    · rfl
    · simp only [ih g₁]
      rcases g₁.translateAll rest with ⟨fault | more, g₂⟩ <;> rfl

theorem serve_begun (g : Generator) (r : Request) :
    g.begun.serve r = ((g.serveLate r).1, (g.serveLate r).2.begun) := by
  cases r with
  | setFile name => rfl
  | withComments wanted => rfl
  | translate c =>
    rw [serve, translate_begun]
    rfl
  | translateAll cs =>
    rw [serve, translateAll_begun]
    rfl
  | bootstrap entry =>
    have hstarted : g.begun.started = true := rfl
    rw [serve, bootstrap, if_pos hstarted]
    rfl

theorem watch_begun (g : Generator) (rs : List Request) :
    watch serve g.begun rs = watch serveLate g rs := by
  induction rs generalizing g with
  | nil => rfl
  | cons r rest ih =>
    rw [watch, watch, serve_begun, observe_begun, ih]

/-- A generator that makes no bootstrap of these requests would give them
the same answers if it turned bootstraps away, but for the reason why the
bootstraps fail. -/
theorem watch_serveLate {rs : List Request} (h : ∀ p ∈ g.madeAll rs, p.isBootstrap = false) :
    watch serveLate g rs = List.zipWith Observation.late rs (watch serve g rs) := by
  induction rs generalizing g with
  | nil => rfl
  | cons r rest ih =>
    rw [madeAll, List.forall_mem_append] at h
    obtain ⟨hr, hrest⟩ := h
    have hserve : (g.serveLate r).2 = (g.serve r).2
        ∧ observe (g.serveLate r).1 (g.serve r).2 =
          (observe (g.serve r).1 (g.serve r).2).late r := by
      cases r with
      | bootstrap entry =>
        refine ⟨?_, rfl⟩
        rcases hboot : (g.bootstrap entry).1 with fault | code
        · exact (bootstrap_of_error hboot).symm
        · have hmade : (⟨none, code⟩ : Piece) ∈ g.made (.bootstrap entry) := by
            rw [made, hboot]
            exact List.mem_singleton_self _
          exact (Bool.false_ne_true (hr _ hmade).symm).elim
      | _ => exact ⟨rfl, rfl⟩
    rw [watch, watch, List.zipWith_cons_cons, hserve.1, hserve.2, ih hrest]

/-! ## What is left behind -/

/-- The second generator is what a failure left of the first. -/
structure Unharmed (g g' : Generator) : Prop where
  file : g'.file = g.file
  comparisons : g'.labels.comparisons = g.labels.comparisons
  calls : g'.labels.calls = g.labels.calls
  translated : g'.translated = g.translated
  /-- All that is asked later is served as without the failure, but for
  the bootstraps, which come too late. -/
  later : ∀ rs, watch serve g' rs = watch serveLate g rs
  /-- Where no bootstrap would have been made without the failure either,
  nothing but the reason for that differs. -/
  unbooted : ∀ rs, (∀ p ∈ g.madeAll rs, p.isBootstrap = false) →
    watch serve g' rs = List.zipWith Observation.late rs (watch serve g rs)

theorem unharmed_begun (g : Generator) : Unharmed g g.begun where
  file := rfl
  comparisons := rfl
  calls := rfl
  translated := rfl
  later := watch_begun g
  unbooted rs h := (watch_begun g rs).trans (watch_serveLate h)

/-- A command that fails returns no instructions and leaves no trace but
that bootstraps come too late, and a bootstrap that fails leaves none at
all. -/
theorem failure_leaves_no_trace (g : Generator) :
    (∀ (c : Located Command) (fault : Fault), (g.translate c).1 = .error fault →
      (g.serve (.translate c)).1.code = [] ∧ Unharmed g (g.translate c).2)
    ∧ ∀ (entry : String) (fault : Fault), (g.bootstrap entry).1 = .error fault →
      (g.serve (.bootstrap entry)).1.code = [] ∧ (g.bootstrap entry).2 = g
        ∧ ∀ rs, watch serve (g.bootstrap entry).2 rs = watch serve g rs := by
  constructor
  · intro c fault h
    refine ⟨by rw [serve, h]; rfl, ?_⟩
    rw [translate_of_error h]
    exact unharmed_begun g
  · intro entry fault h
    refine ⟨by rw [serve, h]; rfl, bootstrap_of_error h, fun rs => ?_⟩
    rw [bootstrap_of_error h]

/-- There is no third pointer cell: the file is kept, nothing is counted,
and a bootstrap that follows is turned away. -/
theorem failure_leaves_no_trace_pointer :
    ∃ fault, ((({} : Generator).setFile "Main.vm").translate
        ⟨.pop .pointer 2, ⟨0, 13⟩, 1⟩).1 = .error fault
      ∧ Unharmed (({} : Generator).setFile "Main.vm")
          ((({} : Generator).setFile "Main.vm").translate ⟨.pop .pointer 2, ⟨0, 13⟩, 1⟩).2 :=
  ⟨_, rfl, ((failure_leaves_no_trace _).1 _ _ rfl).2⟩

end Generator

end HackVm
