import Mathlib.Data.List.Basic
/-!
# Stuffing — data between markers

A marker is the byte `e` with another byte behind it.  Where `e` is data, it is followed by the filler `f`, which follows
no marker's `e`; so the data can be told from the marker at its end (`unstuff_stuff`).
-/
namespace Hdmi2Usb
namespace Stuffing

variable {β : Type*} [DecidableEq β] (e f : β)

def stuffed (b : β) : List β := if b = e then [e, f] else [b]

def stuff (bs : List β) : List β := bs.flatMap (stuffed e f)

/-- The data up to the next marker, and all from the marker on. -/
def unstuff : List β → List β × List β
  | []             => ([], [])
  | [b]            => if b = e then ([], [b]) else ([b], [])
  | b :: c :: rest =>
    if b ≠ e then (b :: (unstuff (c :: rest)).1, (unstuff (c :: rest)).2)
    else if c = f then (b :: (unstuff rest).1, (unstuff rest).2)
    else ([], b :: c :: rest)

variable {e f}

@[simp] theorem stuff_nil : stuff e f [] = [] := rfl

theorem stuff_cons (b : β) (bs : List β) : stuff e f (b :: bs) = stuffed e f b ++ stuff e f bs := List.flatMap_cons

theorem stuff_append (bs cs : List β) : stuff e f (bs ++ cs) = stuff e f bs ++ stuff e f cs := List.flatMap_append

theorem unstuff_cons {b : β} (hb : b ≠ e) (rest : List β) :
    unstuff e f (b :: rest) = (b :: (unstuff e f rest).1, (unstuff e f rest).2) := by
  cases rest with
  | nil => simp [unstuff, hb]
  | cons c rest => simp [unstuff, hb]

theorem unstuff_filled (rest : List β) :
    unstuff e f (e :: f :: rest) = (e :: (unstuff e f rest).1, (unstuff e f rest).2) := by
  simp [unstuff]

theorem unstuff_marker {m : β} (hm : m ≠ f) (rest : List β) : unstuff e f (e :: m :: rest) = ([], e :: m :: rest) := by
  simp [unstuff, hm]

theorem unstuff_stuff {m : β} (hm : m ≠ f) (rest : List β) :
    ∀ bs : List β, unstuff e f (stuff e f bs ++ e :: m :: rest) = (bs, e :: m :: rest)
  | []      => unstuff_marker hm rest
  | b :: bs => by
    rw [stuff_cons, List.append_assoc, stuffed]
    split
    · rename_i hb
      rw [List.cons_append, List.cons_append, List.nil_append, unstuff_filled, unstuff_stuff hm rest bs, hb]
    · rename_i hb
      rw [List.cons_append, List.nil_append, unstuff_cons hb, unstuff_stuff hm rest bs]

end Stuffing
end Hdmi2Usb
