/-!
Sources of random numbers. A source hands out the numbers of an infinite sequence in order; a
list of machine words stands for the sequence that repeats it.
-/

namespace AdaptiveTables

structure RandomSource (α : Type) where
  numberAt : Nat → α
  drawn : Nat := 0

namespace RandomSource

def next {α : Type} (s : RandomSource α) : α × RandomSource α :=
  (s.numberAt s.drawn, { s with drawn := s.drawn + 1 })

/-- The upper 53 bits of a word as a multiple of `2 ^ -53`, which is a double below one. -/
def unitOfWord (word : UInt64) : Float :=
  (word >>> 11).toFloat * Float.scaleB 1.0 (-53)

def ofWords (words : List UInt64) : RandomSource Float where
  numberAt := fun i => unitOfWord (words.getD (i % words.length) 0)

end RandomSource
end AdaptiveTables
