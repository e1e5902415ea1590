import Magneto.Model
import Magneto.WriteVec

/-!
# Writers of frames

A frame is written from a few slices of memory, by calls of `Write` until one
returns 0. `Write` returns the number of bytes left in an `int`. A call of the
routine that writes the slices does its work when it puts a prefix of them on the
wire and keeps the rest.
-/

namespace Magneto

open IOHelper (SockOut SendResult)
open Word (narrow)

namespace IOHelper

def SockOut.Takes (out : SockOut) : Prop := ∃ n rest, out = .took (n + 1) :: rest ∧ .fail ∉ rest

structure PutsPrefix (wv : List (List UInt8) → SockOut → SendResult) (iovs : List (List UInt8))
    (out : SockOut) : Prop where
  flatten : (wv iovs out).put ++ (wv iovs out).iovs.flatten = iovs.flatten
  slices : (wv iovs out).iovs.length ≤ iovs.length
  takes : out.Takes → iovs.flatten ≠ [] →
    (wv iovs out).put ≠ [] ∧ (wv iovs out).ret = narrow (wv iovs out).put.length

def WritesPrefix (wv : List (List UInt8) → SockOut → SendResult) : Prop :=
  ∀ iovs out, PutsPrefix wv iovs out

theorem writeVec_put_ne_nil (next : ℕ → List (List UInt8) → Option (List (List UInt8)))
    {iovs : List (List UInt8)} {out : SockOut} (hout : out.Takes) (hne : iovs.flatten ≠ []) :
    (writeVec next [] iovs out).put ≠ [] := by
  obtain ⟨n, rest, rfl, -⟩ := hout
  have hlen := List.length_pos_iff.mpr hne
  have hk : ¬ min (n + 1) iovs.flatten.length = 0 := by omega
  have htake : iovs.flatten.take (min (n + 1) iovs.flatten.length) ≠ [] := by
    rw [← List.length_pos_iff, List.length_take]
    omega
  simp only [writeVec, if_neg hk, List.nil_append]
  split
  · exact htake
  · exact htake
  · intro hnil
    have hpre := writeVec_put_prefix next (iovs.flatten.take (min (n + 1) iovs.flatten.length))
    rename_i iov left _
    have hpre := hpre (iov :: left) rest
    rw [hnil, List.prefix_nil] at hpre
    exact htake hpre

theorem SockOut.Takes.not_fail {out : SockOut} (hout : out.Takes) : .fail ∉ out := by
  obtain ⟨n, rest, rfl, hrest⟩ := hout
  simpa using hrest

theorem writeVecInOrder_prefix : WritesPrefix writeVecInOrder := fun iovs out =>
  { flatten := (writeVec_inOrder [] iovs out).1
    slices := (writeVec_inOrder [] iovs out).2
    takes := fun hout hne =>
      ⟨writeVec_put_ne_nil _ hout hne, (writeVec_ret hout.not_fail [] iovs).1⟩ }

theorem putsPrefix_of_keeps {iovs : List (List UInt8)} {out : SockOut} (h : keeps iovs out = true) :
    PutsPrefix writeVecNonBlock iovs out :=
  have hkeeps := writeVec_keeps h []
  { flatten := hkeeps.1
    slices := hkeeps.2.1
    takes := fun hout hne => ⟨writeVec_put_ne_nil _ hout hne, hkeeps.2.2.2 hout.not_fail⟩ }

theorem PutsPrefix.ret_pos {wv : List (List UInt8) → SockOut → SendResult}
    {iovs : List (List UInt8)} {out : SockOut} (h : PutsPrefix wv iovs out) (hout : out.Takes)
    (hne : iovs.flatten ≠ []) (hsmall : iovs.flatten.length < 2 ^ 31) :
    0 < (wv iovs out).ret := by
  obtain ⟨hput, hret⟩ := h.takes hout hne
  have hpos := List.length_pos_iff.mpr hput
  have hlen := congrArg List.length h.flatten
  rw [List.length_append] at hlen
  rw [hret, Word.narrow_of_mem (Int.natCast_nonneg _) (by omega)]
  omega

end IOHelper

open IOHelper (WritesPrefix PutsPrefix)

/-- A writer, as `Write` uses it. It is `Ready` for some calls when each of them that takes bytes
puts a prefix of the slices on the wire and returns the number of bytes that are left. -/
structure FramedWriter (W : Type) where
  iovs : W → List (List UInt8)
  write : W → SockOut → WriteCall W
  Ready : W → List SockOut → Prop
  takes : ∀ {w out outs}, Ready w (out :: outs) → out.Takes → (iovs w).flatten ≠ [] →
    (write w out).put ≠ [] ∧
      (write w out).put ++ (iovs (write w out).writer).flatten = (iovs w).flatten ∧
      (write w out).ret = (iovs (write w out).writer).flatten.length ∧
      Ready (write w out).writer outs

namespace FramedWriter

variable {W : Type} (f : FramedWriter W)

def writeAll (w : W) : List SockOut → Option (W × List UInt8 × List SockOut)
  | [] => none
  | out :: outs =>
    let c := f.write w out
    if c.ret = 0 then some (c.writer, c.put, outs)
    else if 0 < c.ret then
      (writeAll c.writer outs).map fun r => (r.1, c.put ++ r.2.1, r.2.2)
    else none

variable {f} {w : W}

theorem writeAll_eq {outs : List SockOut} (hready : f.Ready w outs)
    (hleft : (f.iovs w).flatten ≠ []) (houts : ∀ out ∈ outs, out.Takes)
    (hlen : (f.iovs w).flatten.length ≤ outs.length) :
    ∃ w' used rest, f.writeAll w outs = some (w', (f.iovs w).flatten, rest) ∧
      outs = used ++ rest ∧ used.length ≤ (f.iovs w).flatten.length := by
  induction outs generalizing w with
  | nil => exact absurd (List.length_eq_zero_iff.mp (by simpa using hlen)) hleft
  | cons out outs ih =>
    obtain ⟨hput, hflat, hret, hready'⟩ := f.takes hready (houts out List.mem_cons_self) hleft
    have hpos := List.length_pos_iff.mpr hput
    have hflen := congrArg List.length hflat
    rw [List.length_append] at hflen
    rw [List.length_cons] at hlen
    simp only [writeAll]
    generalize f.write w out = c at hflat hret hready' hpos hflen ⊢
    by_cases hnil : (f.iovs c.writer).flatten = []
    · rw [if_pos (by rw [hret, hnil]; rfl)]
      rw [hnil, List.append_nil] at hflat
      exact ⟨c.writer, [out], outs, by rw [hflat], rfl, by rw [List.length_singleton]; omega⟩
    · have hcpos := List.length_pos_iff.mpr hnil
      rw [if_neg (by omega), if_pos (by omega)]
      obtain ⟨w', used, rest, hw, hused, hulen⟩ := ih hready' hnil
        (fun o ho => houts o (List.mem_cons_of_mem _ ho)) (by omega)
      refine ⟨w', out :: used, rest, ?_, by rw [hused]; rfl, by rw [List.length_cons]; omega⟩
      rw [hw, Option.map_some, hflat]

end FramedWriter

end Magneto
