import Mathlib.Data.List.Chain
import Mathlib.Data.List.Nodup
import Mathlib.Logic.Function.Basic

/-!
# Doubly linked lists

Two partial functions link addresses forward and backward.  A list of addresses is linked when both
functions connect its neighbours; linking one more address behind the first, and taking out the one
in front of the last, keep that.
-/

namespace Foundation

variable {Addr : Type} {next prev : Addr → Option Addr}

/-- The first address leads to the second one, and back. -/
def Link (next prev : Addr → Option Addr) (left right : Addr) : Prop :=
  next left = some right ∧ prev right = some left

/-- All neighbours in a list of different addresses are linked. -/
structure Linked (next prev : Addr → Option Addr) (addrs : List Addr) : Prop where
  distinct : addrs.Nodup
  links : addrs.IsChain (Link next prev)

namespace Linked

/-- What the links of other addresses are does not matter. -/
theorem congr {next' prev' : Addr → Option Addr} {addrs : List Addr}
    (linked : Linked next prev addrs) (nextSame : ∀ addr ∈ addrs, next' addr = next addr)
    (prevSame : ∀ addr ∈ addrs, prev' addr = prev addr) : Linked next' prev' addrs := by
  refine ⟨linked.distinct, linked.links.imp_of_mem_imp fun left right leftIn rightIn link => ?_⟩
  exact ⟨(nextSame left leftIn).trans link.1, (prevSame right rightIn).trans link.2⟩

/-- A list that starts at a given address and ends where the links do is determined by them. -/
theorem unique {first : Addr} {left right : List Addr}
    (leftLinks : (first :: left).IsChain (Link next prev))
    (rightLinks : (first :: right).IsChain (Link next prev))
    (leftEnd : next ((first :: left).getLast (List.cons_ne_nil _ _)) = none)
    (rightEnd : next ((first :: right).getLast (List.cons_ne_nil _ _)) = none) : left = right := by
  induction left generalizing first right with
  | nil =>
      cases right with
      | nil => rfl
      | cons second right =>
          have link := (List.isChain_cons_cons.mp rightLinks).1.1
          rw [List.getLast_singleton, link] at leftEnd
          contradiction
  | cons second left ih =>
      have link := (List.isChain_cons_cons.mp leftLinks).1.1
      cases right with
      | nil =>
          rw [List.getLast_singleton, link] at rightEnd
          contradiction
      | cons other right =>
          have otherLink := (List.isChain_cons_cons.mp rightLinks).1.1
          obtain rfl := Option.some.inj (link.symm.trans otherLink)
          rw [List.getLast_cons (List.cons_ne_nil _ _)] at leftEnd rightEnd
          rw [ih (List.isChain_cons_cons.mp leftLinks).2 (List.isChain_cons_cons.mp rightLinks).2
            leftEnd rightEnd]

/-- Between ends that lead nowhere, the two directions are inverse to each other. -/
theorem next_iff_prev {addrs : List Addr} (linked : Linked next prev addrs)
    (start : ∀ addr ∈ addrs.head?, prev addr = none)
    (stop : ∀ addr ∈ addrs.getLast?, next addr = none) {left right : Addr} (leftIn : left ∈ addrs)
    (rightIn : right ∈ addrs) : next left = some right ↔ prev right = some left := by
  constructor
  · intro forward
    obtain ⟨front, back, rfl⟩ := List.append_of_mem leftIn
    cases back with
    | nil =>
        rw [stop left (by simp)] at forward
        contradiction
    | cons second back =>
        have link := (List.isChain_append_cons_cons.mp linked.links).2.1
        obtain rfl := Option.some.inj (link.1.symm.trans forward)
        exact link.2
  · intro backward
    obtain ⟨front, back, rfl⟩ := List.append_of_mem rightIn
    cases front using List.reverseRecOn with
    | nil =>
        rw [start right (by simp)] at backward
        contradiction
    | append_singleton front second =>
        have links := linked.links
        rw [List.append_assoc, List.singleton_append] at links
        have link := (List.isChain_append_cons_cons.mp links).2.1
        obtain rfl := Option.some.inj (link.2.symm.trans backward)
        exact link.1

variable [DecidableEq Addr]

/-- Link a new address behind the first one. -/
theorem insert {head first fresh : Addr} {rest : List Addr}
    (linked : Linked next prev (head :: first :: rest)) (new : fresh ∉ head :: first :: rest) :
    Linked (Function.update (Function.update next fresh (some first)) head (some fresh))
      (Function.update (Function.update prev fresh (some head)) first (some fresh))
      (head :: fresh :: first :: rest) := by
  obtain ⟨distinct, links⟩ := linked
  simp only [List.nodup_cons, List.mem_cons, not_or] at distinct new
  obtain ⟨⟨headFirst, headRest⟩, firstRest, restDistinct⟩ := distinct
  obtain ⟨freshHead, freshFirst, freshRest⟩ := new
  rw [List.isChain_cons_cons] at links
  refine ⟨?_, ?_⟩
  · simp only [List.nodup_cons, List.mem_cons, not_or]
    exact ⟨⟨Ne.symm freshHead, headFirst, headRest⟩, ⟨freshFirst, freshRest⟩, firstRest,
      restDistinct⟩
  · rw [List.isChain_cons_cons, List.isChain_cons_cons]
    refine ⟨⟨?_, ?_⟩, ⟨?_, ?_⟩,
      links.2.imp_of_mem_tail_imp fun left right leftIn rightIn link => ?_⟩
    · rw [Function.update_self]
    · rw [Function.update_of_ne freshFirst, Function.update_self]
    · rw [Function.update_of_ne freshHead, Function.update_self]
    · rw [Function.update_self]
    · have leftHead : left ≠ head := by
        rintro rfl
        exact (List.mem_cons.mp leftIn).elim headFirst headRest
      have leftFresh : left ≠ fresh := by
        rintro rfl
        exact (List.mem_cons.mp leftIn).elim freshFirst freshRest
      have rightFirst : right ≠ first := fun same => firstRest (same ▸ rightIn)
      have rightFresh : right ≠ fresh := fun same => freshRest (same ▸ rightIn)
      rw [Link, Function.update_of_ne leftHead, Function.update_of_ne leftFresh,
        Function.update_of_ne rightFirst, Function.update_of_ne rightFresh]
      exact link

/-- The links of an address outside of the list can be changed. -/
theorem update_of_notMem {addrs : List Addr} (linked : Linked next prev addrs) {addr : Addr}
    (outside : addr ∉ addrs) (forward backward : Option Addr) :
    Linked (Function.update next addr forward) (Function.update prev addr backward) addrs := by
  have different : ∀ other ∈ addrs, other ≠ addr := by
    rintro other member rfl
    exact outside member
  refine linked.congr (fun other member => ?_) fun other member => ?_
  · exact Function.update_of_ne (different other member) _ _
  · exact Function.update_of_ne (different other member) _ _

/-- Take the address in front of the last one out. -/
theorem remove {front : List Addr} {before taken last : Addr}
    (linked : Linked next prev (front ++ [before, taken, last])) :
    Linked (Function.update next before (some last)) (Function.update prev last (some before))
      (front ++ [before, last]) := by
  obtain ⟨distinct, links⟩ := linked
  have shorter : (front ++ [before, last]).Nodup :=
    distinct.sublist (((List.sublist_cons_self taken [last]).cons_cons before).append_left front)
  rw [List.nodup_append] at distinct
  obtain ⟨frontDistinct, endDistinct, apart⟩ := distinct
  have beforeLast : before ≠ last := by
    rintro rfl
    simp at endDistinct
  have away : ∀ addr ∈ front, addr ≠ before ∧ addr ≠ last := fun addr member =>
    ⟨apart addr member before (by simp), apart addr member last (by simp)⟩
  rw [List.isChain_append] at links
  obtain ⟨frontLinks, _, joint⟩ := links
  refine ⟨shorter, List.isChain_append.mpr ⟨?_, ?_, ?_⟩⟩
  · refine frontLinks.imp_of_mem_imp fun left right leftIn rightIn link => ?_
    rw [Link, Function.update_of_ne (away left leftIn).1,
      Function.update_of_ne (away right rightIn).2]
    exact link
  · rw [List.isChain_pair, Link, Function.update_self, Function.update_self]
    exact ⟨rfl, rfl⟩
  · intro left leftLast right rightFirst
    have leftIn : left ∈ front := List.mem_of_getLast? leftLast
    obtain rfl : before = right := by simpa using rightFirst
    rw [Link, Function.update_of_ne (away left leftIn).1, Function.update_of_ne beforeLast]
    exact joint left leftLast before (by simp)

end Linked

end Foundation
