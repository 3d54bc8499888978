/-!
# Powers

A power with a natural exponent is the core library's in every module. Otherwise the
bounds of words and fields, such as `2 ^ 64`, would be terms of their own wherever the
algebra of monoids is in scope, and lemmas about them would not fit each other.
-/

attribute [instance (2000)] instPowNat
attribute [default_instance 20000] instPowNat
