/-!
# Powers of natural numbers

Sizes and bounds are powers of naturals such as `2 ^ 32`.  The algebraic hierarchy brings a
power of its own, which would stand in every statement below its import.  With these
attributes a power is the same term in a definition and in each lemma about it.
-/

attribute [instance (1100)] instPowNat
attribute [default_instance (1000000)] instPowNat
