import Mathlib.Data.List.Basic
import Mathlib.Logic.Function.Basic
import Onevcs.Foundations.Lines

/-!
# Ref stores

The refs of a repository, each under its full name, and what a short name means in it: git
tries one full name after the other and takes the first that is there. A branch is under
`refs/heads/`, and git tries a tag of the same name before it.
-/

namespace Foundations

/-- What each full name is at. -/
abbrev Refs (κ : Type*) := Text → Option κ

def refsDir : Text := ['r', 'e', 'f', 's', '/']

/-- The full name of a tag. -/
def tagRef (name : Text) : Text := refsDir ++ (['t', 'a', 'g', 's', '/'] ++ name)

/-- The full name of a branch. -/
def headRef (name : Text) : Text := refsDir ++ (['h', 'e', 'a', 'd', 's', '/'] ++ name)

/-- The full name of a remote-tracking branch. -/
def remoteRef (name : Text) : Text := refsDir ++ (['r', 'e', 'm', 'o', 't', 'e', 's', '/'] ++ name)

/-- The full names git tries for a name, in its order. -/
def spellings (name : Text) : List Text :=
  [name, refsDir ++ name, tagRef name, headRef name, remoteRef name,
    remoteRef name ++ ['/', 'H', 'E', 'A', 'D']]

variable {κ : Type*} {refs moved : Refs κ} {name other : Text} {c : κ}

/-- What a name means. -/
def resolve (refs : Refs κ) (name : Text) : Option κ := (spellings name).findSome? refs

/-- Nothing git tries before the branch of this name is there. -/
def Plain (refs : Refs κ) (name : Text) : Prop :=
  ∀ full ∈ [name, refsDir ++ name, tagRef name], refs full = none

/-- Nothing git tries before the remote-tracking branch of this name is there. -/
def PlainRemote (refs : Refs κ) (name : Text) : Prop :=
  ∀ full ∈ [name, refsDir ++ name, tagRef name, headRef name], refs full = none

instance (refs : Refs κ) (name : Text) : Decidable (Plain refs name) :=
  decidable_of_iff (∀ full ∈ [name, refsDir ++ name, tagRef name], (refs full).isNone) <| by
    simp [Plain]

instance (refs : Refs κ) (name : Text) : Decidable (PlainRemote refs name) :=
  decidable_of_iff
    (∀ full ∈ [name, refsDir ++ name, tagRef name, headRef name], (refs full).isNone) <| by
    simp [PlainRemote]

theorem headRef_injective : Function.Injective headRef := by
  intro a b h
  exact List.append_cancel_left (List.append_cancel_left h)

theorem headRef_ne_remoteRef : headRef name ≠ remoteRef other := by
  simp [headRef, remoteRef]

/-- A plain name resolves to its branch. -/
theorem resolve_of_plain (hplain : Plain refs name) (h : refs (headRef name) = some c) :
    resolve refs name = some c := by
  simp only [Plain, List.forall_mem_cons] at hplain
  obtain ⟨hexact, hdir, htag, -⟩ := hplain
  simp [resolve, spellings, hexact, hdir, htag, h]

/-- A plain remote name resolves to its remote-tracking branch. -/
theorem resolve_of_plainRemote (hplain : PlainRemote refs name)
    (h : refs (remoteRef name) = some c) : resolve refs name = some c := by
  simp only [PlainRemote, List.forall_mem_cons] at hplain
  obtain ⟨hexact, hdir, htag, hhead, -⟩ := hplain
  simp [resolve, spellings, hexact, hdir, htag, hhead, h]

/-- Two stores have the same refs, wherever they are. -/
def SameNames (refs moved : Refs κ) : Prop := ∀ full, refs full = none ↔ moved full = none

theorem SameNames.refl (refs : Refs κ) : SameNames refs refs := fun _ => Iff.rfl

theorem SameNames.trans {further : Refs κ} (h : SameNames refs moved)
    (h' : SameNames moved further) : SameNames refs further :=
  fun full => (h full).trans (h' full)

/-- Moving a ref that is there adds and removes none. -/
theorem SameNames.update {held : κ} (h : refs other = some held) (c : κ) :
    SameNames refs (Function.update refs other (some c)) := by
  intro full
  by_cases heq : full = other
  · subst heq
    simp [h]
  · simp [Function.update_of_ne heq]

theorem Plain.of_sameNames (h : SameNames refs moved) (hplain : Plain refs name) :
    Plain moved name :=
  fun full hfull => (h full).mp (hplain full hfull)

theorem PlainRemote.of_sameNames (h : SameNames refs moved) (hplain : PlainRemote refs name) :
    PlainRemote moved name :=
  fun full hfull => (h full).mp (hplain full hfull)

end Foundations
