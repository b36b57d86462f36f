import Mathlib.Data.List.Infix
import Onevcs.Foundations.Framing
import Onevcs.Foundations.Lines

/-!
# Names of refs

The rules that `git check-ref-format` holds a ref's name to, and what they come to for a branch's,
which is the part after `refs/heads/`.
-/

namespace Onevcs.Branches

open Foundations (Text)

/-- A character that no ref's name has: an ASCII control, `DEL`, a space, or one that git's own
grammar of revisions, patterns and refspecs uses. -/
def forbidden (c : Char) : Bool :=
  c.toNat < 0x20 || c.toNat == 0x7f || " ~^:?*[\\".toList.contains c

/-- A part between the slashes of a ref's name. -/
def UsableComponent (component : Text) : Prop :=
  component ≠ [] ∧ component.head? ≠ some '.' ∧ ¬ ".lock".toList <:+ component

instance (component : Text) : Decidable (UsableComponent component) :=
  inferInstanceAs (Decidable (_ ∧ _ ∧ _))

/-- `git check-ref-format`: what the name of a ref is held to. -/
structure RefFormat (ref : Text) : Prop where
  components : ∀ component ∈ ref.splitOn '/', UsableComponent component
  slash : '/' ∈ ref
  noDots : ¬ "..".toList <:+: ref
  allowed : ∀ c ∈ ref, forbidden c = false
  noDotEnd : ref.getLast? ≠ some '.'
  noReflog : ¬ "@\x7b".toList <:+: ref
  notAt : ref ≠ ['@']

/-- What the rules come to for a branch. -/
structure BranchFormat (name : Text) : Prop where
  components : ∀ component ∈ name.splitOn '/', UsableComponent component
  noDots : ¬ "..".toList <:+: name
  allowed : ∀ c ∈ name, forbidden c = false
  noDotEnd : name.getLast? ≠ some '.'
  noReflog : ¬ "@\x7b".toList <:+: name

/-- Where the branches of a repository are. -/
def branchDirectory : Text := "refs/heads".toList

def heads (name : Text) : Text := branchDirectory ++ '/' :: name

variable {name : Text}

theorem splitOn_heads (name : Text) :
    (heads name).splitOn '/' = "refs".toList :: "heads".toList :: name.splitOn '/' := by
  have hsplit : heads name = "refs".toList ++ '/' :: ("heads".toList ++ '/' :: name) := rfl
  rw [hsplit, List.splitOn_append_cons_self_of_not_mem (by decide +kernel),
    List.splitOn_append_cons_self_of_not_mem (by decide +kernel)]

theorem infix_heads_iff {stretch : Text} (hslash : '/' ∉ stretch)
    (hnot : ¬ stretch <:+: branchDirectory) :
    stretch <:+: heads name ↔ stretch <:+: name := by
  rw [heads]
  constructor
  · intro h
    exact (Foundations.infix_append_cons hslash h).resolve_left hnot
  · intro h
    exact h.trans ((List.suffix_cons '/' name).trans (List.suffix_append _ _)).isInfix

theorem getLast?_heads (hname : name ≠ []) : (heads name).getLast? = name.getLast? := by
  obtain ⟨c, rest, rfl⟩ := List.exists_cons_of_ne_nil hname
  rw [heads, List.getLast?_append_of_ne_nil _ (List.cons_ne_nil _ _), List.getLast?_cons_cons]

theorem heads_allowed : ∀ c ∈ branchDirectory, forbidden c = false := by
  have hall : (branchDirectory.all fun c => !forbidden c) = true := by decide +kernel
  intro c hc
  simpa using List.all_eq_true.mp hall c hc

theorem refFormat_heads_iff (name : Text) : RefFormat (heads name) ↔ BranchFormat name := by
  have hdots : "..".toList <:+: heads name ↔ "..".toList <:+: name :=
    infix_heads_iff (by decide +kernel) (by decide +kernel)
  have hreflog : "@\x7b".toList <:+: heads name ↔ "@\x7b".toList <:+: name :=
    infix_heads_iff (by decide +kernel) (by decide +kernel)
  constructor
  · intro h
    have hcomponents : ∀ component ∈ name.splitOn '/', UsableComponent component :=
      fun component hmem => h.components component (by
        rw [splitOn_heads]
        exact List.mem_cons_of_mem _ (List.mem_cons_of_mem _ hmem))
    have hname : name ≠ [] := by
      rintro rfl
      exact (hcomponents [] List.mem_cons_self).1 rfl
    exact
      { components := hcomponents
        noDots := fun hin => h.noDots (hdots.mpr hin)
        allowed := fun c hc => h.allowed c (List.mem_append_right _ (List.mem_cons_of_mem _ hc))
        noDotEnd := getLast?_heads hname ▸ h.noDotEnd
        noReflog := fun hin => h.noReflog (hreflog.mpr hin) }
  · intro h
    have hname : name ≠ [] := by
      rintro rfl
      exact (h.components [] List.mem_cons_self).1 rfl
    refine
      { components := fun component hmem => ?_
        slash := by simp [heads]
        noDots := fun hin => h.noDots (hdots.mp hin)
        allowed := fun c hc => ?_
        noDotEnd := by
          rw [getLast?_heads hname]
          exact h.noDotEnd
        noReflog := fun hin => h.noReflog (hreflog.mp hin)
        notAt := by
          intro heq
          cases heq }
    · rw [splitOn_heads] at hmem
      rcases List.mem_cons.mp hmem with rfl | hmem
      · decide +kernel
      · rcases List.mem_cons.mp hmem with rfl | hmem
        · decide +kernel
        · exact h.components component hmem
    · rcases List.mem_append.mp hc with hc | hc
      · exact heads_allowed c hc
      · rcases List.mem_cons.mp hc with rfl | hc
        · decide +kernel
        · exact h.allowed c hc

end Onevcs.Branches
