import Mathlib.Data.List.Forall2
import HackVm.File.System

/-!
# Steps that only ask

A build asks its file system many things before it stores anything. What is
said here of steps that only ask holds on every file system whose questions
change nothing (`FileSystem.Still`): such a step has an answer and leaves
the state alone (`Answers`), and answers compose as the steps do. So what is
said about one step is said about it wherever it stands.
-/

namespace HackVm

variable {σ ε α β : Type} {s : σ}

theorem bind_eq (x : StateM σ α) (f : α → StateM σ β) : (x >>= f) s = f (x s).1 (x s).2 := rfl

/-- In this state a step has the given result, and the state stays as it
is. -/
def Answers (s : σ) (x : ExceptT ε (StateM σ) α) (r : Except ε α) : Prop := x.run s = (r, s)

namespace Answers

variable {x : ExceptT ε (StateM σ) α} {f : α → ExceptT ε (StateM σ) β} {a : α} {e : ε}
  {r : Except ε β}

theorem pure (a : α) : Answers s (Pure.pure a : ExceptT ε (StateM σ) α) (.ok a) := rfl

theorem throw (e : ε) : Answers s (MonadExcept.throw e : ExceptT ε (StateM σ) α) (.error e) := rfl

theorem run_bind : (x >>= f).run s = ExceptT.bindCont f (x.run s).1 (x.run s).2 := rfl

/-- What comes behind an answer starts from it, in the same state. -/
theorem run_then (hx : Answers s x (.ok a)) : (x >>= f).run s = (f a).run s := by
  rw [run_bind, hx]
  rfl

theorem bind (hx : Answers s x (.ok a)) (hf : Answers s (f a) r) : Answers s (x >>= f) r :=
  hx.run_then.trans hf

theorem bind_error (hx : Answers s x (.error e)) : Answers s (x >>= f) (.error e) := by
  rw [Answers, run_bind, hx]
  rfl

/-- A step, and another one that depends on its answer. -/
theorem bind_all {r : Except ε α} {g : α → Except ε β} (hx : Answers s x r)
    (hf : ∀ a, Answers s (f a) (g a)) : Answers s (x >>= f) (r >>= g) := by
  cases r with
  | error e => exact hx.bind_error
  | ok a => exact hx.bind (hf a)

theorem run_lift (x : StateM σ α) :
    (liftM x : ExceptT ε (StateM σ) α).run s = (.ok (x s).1, (x s).2) := rfl

/-- A question to the file system, and what is done with the answer. -/
theorem ask {x : StateM σ α} (hx : x s = (a, s)) (hf : Answers s (f a) r) :
    Answers s (liftM x >>= f) r := by
  refine bind ?_ hf
  rw [Answers, run_lift, hx]

/-! ## Rows of steps -/

/-- Steps that are taken one after the other have the answers that they
have alone. -/
theorem mapM_all {g : α → Except ε β} (h : ∀ x, Answers s (f x) (g x)) (xs : List α) :
    Answers s (xs.mapM f) (xs.mapM g) := by
  induction xs with
  | nil => exact .pure []
  | cons x xs ih =>
    rw [List.mapM_cons, List.mapM_cons]
    exact (h x).bind_all fun b => ih.bind_all fun bs => .pure _

theorem mapM_ok {xs : List α} {bs : List β}
    (h : List.Forall₂ (fun x b => Answers s (f x) (.ok b)) xs bs) :
    Answers s (xs.mapM f) (.ok bs) := by
  induction h with
  | nil => exact .pure []
  | cons hx _ ih =>
    rw [List.mapM_cons]
    exact hx.bind (ih.bind (.pure _))

theorem mapM_error {before after : List α} {x : α} {bs : List β}
    (hbefore : List.Forall₂ (fun x b => Answers s (f x) (.ok b)) before bs)
    (hx : Answers s (f x) (.error e)) : Answers s ((before ++ x :: after).mapM f) (.error e) := by
  induction hbefore with
  | nil =>
    rw [List.nil_append, List.mapM_cons]
    exact hx.bind_error
  | cons hy _ ih =>
    rw [List.cons_append, List.mapM_cons]
    exact hy.bind ih.bind_error

theorem filterM {f : α → ExceptT ε (StateM σ) Bool} {p : α → Bool}
    (h : ∀ x, Answers s (f x) (.ok (p x))) (xs : List α) :
    Answers s (xs.filterM f) (.ok (xs.filter p)) := by
  -- What has been found so far is kept from the end.
  have haux : ∀ found, Answers s (List.filterAuxM f xs found)
      (.ok ((xs.filter p).reverse ++ found)) := by
    induction xs with
    | nil => exact fun found => .pure found
    | cons x xs ih =>
      intro found
      rw [List.filterAuxM]
      refine (h x).bind ?_
      cases hx : p x with
      | true => simpa [hx] using ih (x :: found)
      | false => simpa [hx] using ih found
  refine (haux []).bind ?_
  simpa using pure (ε := ε) (s := s) (xs.filter p)

end Answers

/-! ## A file system in a state -/

namespace FileSystem

variable [FileSystem (StateM σ)]

def kindAt (s : σ) (p : Path) : Option FileKind := ((kind p : StateM σ _) s).1

def entriesAt (s : σ) (p : Path) : Except IoError (List String) := ((entries p : StateM σ _) s).1

def readAt (s : σ) (p : Path) : Except IoError String := ((read p : StateM σ _) s).1

/-- The result of a store, and the state behind it. -/
def writeAt (s : σ) (p : Path) (text : String) : Except IoError Unit × σ :=
  (write p text : StateM σ _) s

/-- Questions change nothing in this state. -/
structure Still (s : σ) : Prop where
  kind : ∀ p, (FileSystem.kind p : StateM σ _) s = (kindAt s p, s)
  entries : ∀ p, (FileSystem.entries p : StateM σ _) s = (entriesAt s p, s)
  read : ∀ p, (FileSystem.read p : StateM σ _) s = (readAt s p, s)
  locate : ∀ p, ((FileSystem.locate p : StateM σ _) s).2 = s

end FileSystem

end HackVm
