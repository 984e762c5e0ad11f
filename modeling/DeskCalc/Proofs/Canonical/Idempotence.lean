import DeskCalc.Proofs.Canonical.Passes
import DeskCalc.Proofs.Canonical.Spelling

/-!
# The canonical notation is a normal form

A text is in normal form when no pass has anything left to do. What `canonical` returns is in normal
form, and a text in normal form is its own canonical notation.

* `Canonical.normal_canonical`: every canonical notation is in normal form.
* `Canonical.Normal.canonical_eq_self`: a normal form stays as it is.
* `canonical_canonical`: the canonical notation of a canonical notation is itself.
-/

namespace DeskCalc

open Text

namespace Canonical

/-- No pass has anything left to do. -/
structure Normal (t : Text) : Prop where
  glyphFree : GlyphFree t
  percentFree : PercentFree t
  starFree : StarFree t
  spelled : spellWords t = t

/-- What the passes establish one after the other, all of them hold in the end. -/
theorem normal_canonical (raw : Text) : Normal (canonical raw) := by
  have hlower := lower_spellWords (joinStars (expandPercents (replaceGlyphs raw)))
  refine ⟨?_, ?_, ?_, spellWords_spellWords _⟩
  · have hglyphs := (glyphFree_replaceGlyphs raw).expandPercents.joinStars
    exact hglyphs.of_lower_eq hlower
  · have hpercents := (percentFree_expandPercents (replaceGlyphs raw)).joinStars
    rw [← percentFree_lower] at hpercents ⊢
    rwa [canonical, hlower]
  · have hstars := starFree_joinStars (expandPercents (replaceGlyphs raw))
    rw [← starFree_lower] at hstars ⊢
    rwa [canonical, hlower]

/-- A text in normal form is its own canonical notation. -/
theorem Normal.canonical_eq_self {t : Text} (h : Normal t) : canonical t = t := by
  rw [canonical, replaceGlyphs_eq_self h.glyphFree, expandPercents_eq_self h.percentFree,
    joinStars_eq_self h.starFree, h.spelled]

end Canonical

/-- **The canonical notation of a text in canonical notation is the text itself**, whatever text it
came from. -/
theorem canonical_canonical (raw : Text) : canonical (canonical raw) = canonical raw :=
  (Canonical.normal_canonical raw).canonical_eq_self

end DeskCalc
